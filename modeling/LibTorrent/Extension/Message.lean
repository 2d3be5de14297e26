import LibTorrent.Object.RoundTrip

namespace LibTorrent

open Int64 Lib Lib.Cursor Lib.Decimal List Rules

/-- `build_bencode` of a formatted text. `vsnprintf` keeps the last byte of the buffer for
a zero, and returns the length that the whole text has. -/
def buildBencode (maxLength : ℕ) (text : Bytes) : Option Bytes :=
  if text.length > maxLength then none else some ((text.take (maxLength - 1) ++ [0]).take text.length)

def rejectText (piece : ℕ) : Bytes := ascii "d8:msg_typei2e5:piecei" ++ (decimal piece ++ ascii "ee")

def dataText (piece size : ℕ) : Bytes :=
  ascii "d8:msg_typei1e5:piecei" ++ (decimal piece ++ (ascii "e10:total_sizei" ++ (decimal size ++ ascii "ee")))

theorem buildBencode_of_lt {maxLength : ℕ} {text : Bytes} (h : text.length < maxLength) :
    buildBencode maxLength text = some text := by
  rw [buildBencode, if_neg (by omega), take_of_length_le (i := maxLength - 1) (by omega), take_left]

theorem buildBencode_full (text : Bytes) (c : UInt8) :
    buildBencode (text.length + 1) (text ++ [c]) = some (text ++ [0]) := by
  rw [buildBencode, if_neg (by simp)]
  simp

def fieldsText (fs : List (Bytes × ℕ)) : Bytes :=
  fs.flatMap fun p ↦ stringText p.1 ++ (ch 'i' :: (decimal p.2 ++ [ch 'e']))

def fieldObjects (fs : List (Bytes × ℕ)) : List (Bytes × Object) :=
  fs.map fun p ↦ (p.1, .value 0 (ofNat p.2))

section Dictionary

variable {k t : Bytes} {acc : List (Bytes × Object)} {prev : Bytes}

theorem objectReadLevels_integer (n v : ℕ) (r : Bytes) :
    cRules.readLevels n (ch 'i' :: (decimal v ++ ch 'e' :: r)) = some ((.value 0 (ofNat v), false), r) := by
  have hitem : ∀ inner, cRules.readItem inner (ch 'i' :: (decimal v ++ ch 'e' :: r)) =
      some ((.value 0 (ofNat v), false), r) := fun inner ↦
    objectReadItem_integer.mpr ⟨false, decimal v, digits_decimal v, by simp [SignOk], by simp [sign],
      by simp [denoted, value_decimal, ofInt_eq_ofNat], rfl⟩
  cases n <;> exact hitem _

theorem readUntil_field (n v : ℕ) (hprev : acc ≠ [] → prev < k) (hacc : ∀ p ∈ acc, p.1 ≤ prev)
    (hlen : (fieldsText [(k, v)] ++ t).length < 2 ^ 32) :
    readUntil (ch 'e') (cRules.mapStep (cRules.readLevels n)) (acc, prev, false) (fieldsText [(k, v)] ++ t) =
      readUntil (ch 'e') (cRules.mapStep (cRules.readLevels n)) (acc ++ fieldObjects [(k, v)], k, false) t := by
  have htext : fieldsText [(k, v)] ++ t = stringText k ++ (ch 'i' :: (decimal v ++ ch 'e' :: t)) := by
    simp [fieldsText]
  rw [htext] at hlen ⊢
  simp only [stringText, length_append, length_cons] at hlen
  have hkey := objectReadBencodeCString_stringText (k := k) (by omega) (ch 'i' :: (decimal v ++ ch 'e' :: t))
  rw [if_pos (by simp only [length_append, length_cons]; omega)] at hkey
  have hlt : ∀ p ∈ acc, p.1 < k := fun p hp ↦
    Std.lt_of_le_of_lt (hacc p hp) (hprev (ne_nil_of_mem hp))
  have hflag : (decide (k ≤ prev) && !acc.isEmpty) = false := by
    cases acc with
    | nil => simp
    | cons q acc => simpa using Std.not_le.mpr (hprev (cons_ne_nil q acc))
  refine readUntil_turn (consumes_mapStep (cRules_moves.readLevels n)) (mapStep_stop _ _) (mapStep_eq_some.mpr
    ⟨_, _, _, hkey, objectReadLevels_integer n v t, ?_⟩)
  simp [cRules, OrderedMap.insert_append _ hlt, hflag, fieldObjects]

theorem readUntil_fields (n : ℕ) (fs : List (Bytes × ℕ)) (acc : List (Bytes × Object)) (prev : Bytes)
    (hsort : (fs.map Prod.fst).Pairwise (· < ·))
    (hprev : acc ≠ [] → ∀ p ∈ fs, prev < p.1) (hacc : ∀ p ∈ acc, p.1 ≤ prev)
    (hlen : (fieldsText fs ++ t).length < 2 ^ 32) :
    ∃ prev', readUntil (ch 'e') (cRules.mapStep (cRules.readLevels n)) (acc, prev, false) (fieldsText fs ++ t) =
      readUntil (ch 'e') (cRules.mapStep (cRules.readLevels n)) (acc ++ fieldObjects fs, prev', false) t := by
  induction fs generalizing acc prev with
  | nil => exact ⟨prev, by simp [fieldsText, fieldObjects]⟩
  | cons p fs ih =>
    have htext : fieldsText (p :: fs) ++ t = fieldsText [p] ++ (fieldsText fs ++ t) := by simp [fieldsText]
    rw [htext] at hlen ⊢
    rw [readUntil_field n p.2 (fun h ↦ hprev h p mem_cons_self) hacc hlen]
    rw [map_cons, pairwise_cons] at hsort
    have hle : ∀ q ∈ acc ++ fieldObjects [p], q.1 ≤ p.1 := by
      intro q hq
      rcases mem_append.mp hq with hq | hq
      · exact Std.le_of_lt (Std.lt_of_le_of_lt (hacc q hq) (hprev (ne_nil_of_mem hq) p mem_cons_self))
      · obtain rfl : q = (p.1, .value 0 (ofNat p.2)) := by simpa [fieldObjects] using hq
        exact Std.le_refl p.1
    have hlt : ∀ q ∈ fs, p.1 < q.1 := fun q hq ↦ hsort.1 _ (mem_map_of_mem hq)
    obtain ⟨prev', h⟩ := ih (acc ++ fieldObjects [p]) p.1 hsort.2 (fun _ ↦ hlt) hle
      (by simp only [length_append] at hlen ⊢; omega)
    exact ⟨prev', by rw [h]; simp [fieldObjects]⟩

theorem objectReadBencodeC_fields {fs : List (Bytes × ℕ)} (hsort : (fs.map Prod.fst).Pairwise (· < ·))
    {r : Bytes} (hlen : (fieldsText fs ++ ch 'e' :: r).length < 2 ^ 32) :
    objectReadBencodeC (ch 'd' :: (fieldsText fs ++ ch 'e' :: r)) 0 = some ((.map 0 (fieldObjects fs), false), r) := by
  obtain ⟨prev, h⟩ := readUntil_fields 1022 fs [] [] hsort (by simp) (by simp) hlen
  exact readItem_map.mpr ⟨_, _, prev, _, rfl, h, rfl⟩

theorem objectReadBencodeC_fields_zero {fs : List (Bytes × ℕ)} (hsort : (fs.map Prod.fst).Pairwise (· < ·))
    (hlen : (fieldsText fs ++ [0]).length < 2 ^ 32) :
    objectReadBencodeC (ch 'd' :: (fieldsText fs ++ [0])) 0 = none := by
  obtain ⟨prev, h⟩ := readUntil_fields 1022 fs [] [] hsort (by simp) (by simp) hlen
  have hstep : ∀ b, cRules.mapStep (cRules.readLevels 1022) b [0] = none := by
    intro b
    rfl
  have hd : objectReadBencodeC (ch 'd' :: (fieldsText fs ++ [0])) 0 =
      cRules.readItem (some (cRules.readLevels 1022)) (ch 'd' :: (fieldsText fs ++ [0])) := rfl
  rw [hd, readItem_d, Option.bind_some, h]
  rfl

end Dictionary

def msgTypeKey : Bytes := ascii "msg_type"

def pieceKey : Bytes := ascii "piece"

def totalSizeKey : Bytes := ascii "total_size"

theorem decimal_of_lt_ten {d : ℕ} (h : d < 10) : decimal d = [ofDigit d] := by
  interval_cases d <;> simp only [decimal] <;> rfl

theorem stringText_keys : stringText msgTypeKey = ascii "8:msg_type" ∧ stringText pieceKey = ascii "5:piece" ∧
      stringText totalSizeKey = ascii "10:total_size" := ⟨rfl, rfl, rfl⟩

theorem rejectText_eq (piece : ℕ) :
    rejectText piece = ch 'd' :: (fieldsText [(msgTypeKey, 2), (pieceKey, piece)] ++ [ch 'e']) := by
  simp only [fieldsText, flatMap_cons, flatMap_nil, stringText_keys, decimal_of_lt_ten (d := 2) (by decide),
    append_nil, append_assoc, cons_append]
  rfl

theorem dataText_eq (piece size : ℕ) : dataText piece size =
      ch 'd' :: (fieldsText [(msgTypeKey, 1), (pieceKey, piece), (totalSizeKey, size)] ++ [ch 'e']) := by
  simp only [fieldsText, flatMap_cons, flatMap_nil, stringText_keys, decimal_of_lt_ten (d := 1) (by decide),
    append_nil, append_assoc, cons_append]
  rfl

end LibTorrent
