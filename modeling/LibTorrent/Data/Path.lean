import LibTorrent.Lib.Decimal
import LibTorrent.Lib.Lexicographic
import Mathlib.Data.List.TakeWhile

namespace LibTorrent

open Lib.Decimal Lib.Lexicographic List

/-- `torrent::Path`, with the bytes of its elements. -/
abbrev Path := List Bytes

namespace Path

/-- `insert_path`. A part is put before the part that precedes it in the string. -/
def insertPath (pos : ℕ) (path : Bytes) (p : Path) : Path :=
  if path = [] then p
  else
    let p := p.insertIdx pos (path.takeWhile (· != ch '/'))
    match _h : path.dropWhile (· != ch '/') with
    | [] => p
    | _ :: rest => insertPath pos rest p
termination_by path.length
decreasing_by
  have hlen := (dropWhile_sublist (· != ch '/') (l := path)).length_le
  rw [_h, length_cons] at hlen
  omega

def pushBack (path : Bytes) (p : Path) : Path := insertPath p.length path p

def compareLess : Path → Path → Bool := lexCompare (lexCompare fun a b ↦ decide (a < b))

def isPrefix (p q : Path) : Bool := decide (p.length ≤ q.length) && (p.zip q).all fun c ↦ c.1 = c.2

def asString (p : Path) : Bytes := p.flatMap fun c ↦ ch '/' :: c

structure IsElement (s : Bytes) : Prop where
  nonempty : s ≠ []
  ne_dot : s ≠ ascii "."
  ne_dotdot : s ≠ ascii ".."
  slash : ch '/' ∉ s
  nul : 0 ∉ s

/-- The directory that is reached from `dir` through the elements of a file name. -/
def walk : Path → List Bytes → Path
  | dir, [] => dir
  | dir, c :: l =>
    if c = [] ∨ c = ascii "." then walk dir l
    else if c = ascii ".." then walk dir.dropLast l
    else walk (dir ++ [c]) l

/-- What the system understands by a file name, from the current directory. -/
def resolve (name : Bytes) : Path := walk [] (name.splitOnP (· == ch '/'))

theorem pushBack_of_slash {s : Bytes} (hs : s ≠ []) (hslash : ch '/' ∉ s) (p : Path) : pushBack s p = p ++ [s] := by
  have hall : ∀ c ∈ s, (c != ch '/') = true := fun c hc ↦ bne_iff_ne.mpr fun heq ↦ hslash (heq ▸ hc)
  have htake := takeWhile_eq_self_iff.mpr hall
  have hdrop := dropWhile_eq_nil_iff.mpr hall
  rw [pushBack, insertPath, if_neg hs, htake]
  split
  · rw [insertIdx_length_self]
  · next heq => exact absurd (hdrop.symm.trans heq) (by simp)

theorem isPrefix_iff (p q : Path) : isPrefix p q = true ↔ p <+: q := by
  induction p generalizing q with
  | nil => simp [isPrefix]
  | cons c p ih =>
    cases q with
    | nil => simp [isPrefix]
    | cons d q =>
      rw [cons_prefix_cons, ← ih q]
      simp only [isPrefix, length_cons, zip_cons_cons, all_cons, Bool.and_eq_true, decide_eq_true_eq,
        Nat.add_le_add_iff_right]
      exact and_left_comm

theorem strict_byte : Strict fun a b : UInt8 ↦ decide (a < b) where
  irrefl a := decide_eq_false (UInt8.lt_irrefl a)
  trans _ _ _ hab hbc := decide_eq_true (UInt8.lt_trans (of_decide_eq_true hab) (of_decide_eq_true hbc))
  connected _ _ hab hba :=
    UInt8.le_antisymm (UInt8.not_lt.mp (of_decide_eq_false hba)) (UInt8.not_lt.mp (of_decide_eq_false hab))

theorem walk_append (dir : Path) (l m : List Bytes) : walk dir (l ++ m) = walk (walk dir l) m := by
  induction l generalizing dir with
  | nil => rfl
  | cons c l ih =>
    rw [cons_append, walk, walk]
    split_ifs <;> exact ih _

theorem walk_elements (dir : Path) {p : Path} (hp : ∀ c ∈ p, IsElement c) : walk dir p = dir ++ p := by
  induction p generalizing dir with
  | nil => rw [walk, append_nil]
  | cons c p ih =>
    have hc := hp c mem_cons_self
    rw [walk, if_neg (not_or.mpr ⟨hc.nonempty, hc.ne_dot⟩), if_neg hc.ne_dotdot,
      ih _ fun d hd ↦ hp d (mem_cons_of_mem _ hd), append_assoc, singleton_append]

theorem split_asString (dir : Bytes) {p : Path} (hp : ∀ c ∈ p, IsElement c) :
    (dir ++ asString p).splitOnP (· == ch '/') = dir.splitOnP (· == ch '/') ++ p := by
  induction p generalizing dir with
  | nil => rw [asString, flatMap_nil, append_nil, append_nil]
  | cons c p ih =>
    have hc : ∀ x ∈ c, (x == ch '/') = false :=
      fun x hx ↦ beq_eq_false_iff_ne.mpr fun heq ↦ (hp c mem_cons_self).slash (heq ▸ hx)
    have happ : dir ++ asString (c :: p) = (dir ++ ch '/' :: c) ++ asString p := by simp [asString]
    have hsep : (ch '/' == ch '/') = true := BEq.rfl
    rw [happ, ih _ fun d hd ↦ hp d (mem_cons_of_mem _ hd),
      splitOnP_append_cons (p := (· == ch '/')) dir c hsep, splitOnP_eq_singleton hc, append_assoc, singleton_append]

theorem resolve_asString (dir : Bytes) {p : Path} (hp : ∀ c ∈ p, IsElement c) :
    resolve (dir ++ asString p) = resolve dir ++ p := by
  rw [resolve, split_asString dir hp, walk_append, walk_elements _ hp, resolve]

end Path

end LibTorrent
