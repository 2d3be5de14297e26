import LibTorrent.Lib.Decimal
import LibTorrent.Lib.OrderedMap

namespace LibTorrent

open Lib Lib.Decimal

/-- `torrent::Object`, with the public part of its flag word. A map is the entry
list of a `std::map`, the raw kinds are views of bencoded text. The internal flag
`flag_unordered` is not stored: copying an object drops it, and the readers hand it
up as they return. -/
inductive Object
  | none (flags : UInt32)
  | rawBencode (flags : UInt32) (raw : Bytes)
  | rawString (flags : UInt32) (raw : Bytes)
  | rawList (flags : UInt32) (raw : Bytes)
  | rawMap (flags : UInt32) (raw : Bytes)
  | value (flags : UInt32) (v : Int64)
  | string (flags : UInt32) (s : Bytes)
  | list (flags : UInt32) (l : List Object)
  | map (flags : UInt32) (m : List (Bytes × Object))
  | dictKey (flags : UInt32) (key : Bytes) (object : Object)

namespace Object

def flags : Object → UInt32
  | none f | rawBencode f _ | rawString f _ | rawList f _ | rawMap f _ | value f _ | string f _
  | list f _ | map f _ | dictKey f _ _ => f

def isEmpty : Object → Bool
  | none _ => true
  | _ => false

mutual

def clearFlags : Object → Object
  | none _ => .none 0
  | rawBencode _ r => .rawBencode 0 r
  | rawString _ r => .rawString 0 r
  | rawList _ r => .rawList 0 r
  | rawMap _ r => .rawMap 0 r
  | value _ v => .value 0 v
  | string _ s => .string 0 s
  | list _ l => .list 0 (clearFlagsList l)
  | map _ m => .map 0 (clearFlagsMap m)
  | dictKey _ k o => .dictKey 0 k (clearFlags o)

def clearFlagsList : List Object → List Object
  | [] => []
  | o :: l => clearFlags o :: clearFlagsList l

def clearFlagsMap : List (Bytes × Object) → List (Bytes × Object)
  | [] => []
  | (k, o) :: m => (k, clearFlags o) :: clearFlagsMap m

end

/-- Objects made of values, strings, lists and maps only, at most `depth` containers
deep. Maps are in key order, and every string has fewer than `2 ^ 31` bytes. -/
inductive Plain : ℕ → Object → Prop
  | value {depth : ℕ} (f : UInt32) (v : Int64) : Plain depth (.value f v)
  | string {depth : ℕ} (f : UInt32) (s : Bytes) (hs : s.length < 2 ^ 31) : Plain depth (.string f s)
  | list {depth : ℕ} (f : UInt32) (l : List Object) (hl : ∀ o ∈ l, Plain depth o) :
      Plain (depth + 1) (.list f l)
  | map {depth : ℕ} (f : UInt32) (m : List (Bytes × Object)) (hm : OrderedMap.Sorted m)
      (hk : ∀ p ∈ m, p.1.length < 2 ^ 31) (hv : ∀ p ∈ m, Plain depth p.2) :
      Plain (depth + 1) (.map f m)

end Object

end LibTorrent
