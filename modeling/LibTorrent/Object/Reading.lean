import LibTorrent.Lib.Lexing
import LibTorrent.Object.Encode

namespace LibTorrent

open Lib Lib.Decimal Lib.Cursor Lib.Lexing

/-- A digit loop of the readers, `while (first != last && *first >= '0' && *first <= '9')`. -/
def digitLoop {R : Type} (step : R → UInt8 → R) : R → Bytes → R × Bytes
  | a, [] => (a, [])
  | a, c :: s => if isDigit c then digitLoop step (step a c) s else (a, c :: s)

def valueStep (value : Int64) (c : UInt8) : Int64 := value * 10 + Int64.ofNat (digitVal c)

def lengthStep (length : UInt32) (c : UInt8) : UInt32 := length * 10 + UInt32.ofNat (digitVal c)

/-- `object_read_bencode_c_value`. The text is left where it stands when a minus sign
does not precede a digit from one to nine, and the value then keeps its old contents. -/
def objectReadBencodeCValue (s : Bytes) (value : Int64) : Int64 × Bytes :=
  match s with
  | [] => (value, [])
  | c :: t =>
    if c = ch '-' then
      match t with
      | [] => (value, s)
      | d :: _ =>
        if d ≤ ch '0' ∨ ch '9' < d then (value, s) else
          let (v, r) := digitLoop valueStep 0 t
          (-v, r)
    else digitLoop valueStep 0 s

/-- `object_read_bencode_c_string`: the string and the rest of the text. Every failure
of this and of the other readers is the error "Invalid bencode data.". -/
def objectReadBencodeCString (s : Bytes) : Option (Bytes × Bytes) :=
  let (length, t) := digitLoop lengthStep 0x80000000 s
  if length + 1 > UInt32.ofNat t.length ∨ length + 1 = 0 then none else
    match t with
    | [] => none
    | c :: t => if c = ch ':' then some (t.take length.toNat, t.drop length.toNat) else none

def objectReadBencodeCInteger (s : Bytes) : Option (Int64 × Bytes) :=
  match objectReadBencodeCValue s 0 with
  | (_, []) => none
  | (v, e :: r) => if e = ch 'e' then some (v, r) else none

/-- How a reader takes an integer, after its first letter and with its last one, and a string
with its length, and what it returns for an object, with its flags left open, that has or has
not `flag_unordered`. -/
structure Rules (ω : Type) where
  int : Bytes → Option (Int64 × Bytes)
  str : Bytes → Option (Bytes × Bytes)
  make : (UInt32 → Object) → Bool → ω
  part : ω → Object × Bool

/-- A reader of one object. It returns the object and the text after it. -/
abbrev Reader (ω : Type) := Bytes → Option (ω × Bytes)

namespace Rules

variable {ω : Type} (rules : Rules ω)

def listStep (read : Reader ω) : Step UInt8 (List Object × Bool)
  | (l, u), s => (read s).map fun (o, r) ↦ ((l ++ [(rules.part o).1], u || (rules.part o).2), r)

def mapStep (read : Reader ω) : Step UInt8 (List (Bytes × Object) × Bytes × Bool)
  | (m, prev, u), s => do
    let (str, s) ← rules.str s
    let u := u || (decide (str ≤ prev) && !m.isEmpty)
    let (o, r) ← read s
    some ((OrderedMap.insert m str (rules.part o).1, str, u || (rules.part o).2), r)

/-- The switch of `object_read_bencode_c`. Elements are read by `inner`, which is absent
where another level would be too deep. -/
def readItem (inner : Option (Reader ω)) : Reader ω
  | [] => none
  | c :: s =>
    if c = ch 'i' then (rules.int s).map fun (v, r) ↦ (rules.make (.value · v) false, r)
    else if c = ch 'l' then
      inner.bind fun read ↦ (readUntil (ch 'e') (rules.listStep read) ([], false) s).map
        fun ((l, u), r) ↦ (rules.make (.list · l) u, r)
    else if c = ch 'd' then
      inner.bind fun read ↦ (readUntil (ch 'e') (rules.mapStep read) ([], [], false) s).map
        fun ((m, _, u), r) ↦ (rules.make (.map · m) u, r)
    else if c < ch '0' ∨ ch '9' < c then none
    else (rules.str (c :: s)).map fun (str, r) ↦ (rules.make (.string · str) false, r)

def readLevels : ℕ → Reader ω
  | 0 => rules.readItem none
  | n + 1 => rules.readItem (some (readLevels n))

end Rules

/-- The reader returns the object, without flags, and its `flag_unordered`. -/
def cRules : Rules (Object × Bool) :=
  ⟨objectReadBencodeCInteger, objectReadBencodeCString, fun o u ↦ (o 0, u), id⟩

/-- `object_read_bencode_c`. A container at `depth` raises it by one and fails at 1024. -/
def objectReadBencodeC (s : Bytes) (depth : ℕ) : Option ((Object × Bool) × Bytes) :=
  cRules.readLevels (1023 - depth) s

open List UInt32

def Digits (ds : Bytes) : Prop := ∀ c ∈ ds, isDigit c = true

variable {R : Type} {ds s r : Bytes} {e : UInt8}

theorem digitLoop_eq (step : R → UInt8 → R) (a : R) (s : Bytes) :
    digitLoop step a s = ((s.takeWhile isDigit).foldl step a, s.dropWhile isDigit) := by
  induction s generalizing a with
  | nil => rfl
  | cons c s ih =>
    rw [digitLoop]
    split_ifs with hc
    · rw [ih, takeWhile_cons_of_pos hc, dropWhile_cons_of_pos hc, foldl_cons]
    · rw [takeWhile_cons_of_neg hc, dropWhile_cons_of_neg hc, foldl_nil]

theorem digitLoop_digits (step : R → UInt8 → R) (a : R) (hds : Digits ds) (he : isDigit e = false) (s : Bytes) :
    digitLoop step a (ds ++ e :: s) = (ds.foldl step a, e :: s) := by
  obtain ⟨h₁, h₂⟩ := takeWhile_digits hds he s
  rw [digitLoop_eq, h₁, h₂]

theorem foldl_valueStep (hds : Digits ds) : ds.foldl valueStep 0 = Int64.ofNat (value ds) :=
  foldl_digits Int64.ofNat valueStep (fun a c _ ↦ by rw [valueStep, Int64.ofNat_add, Int64.ofNat_mul]; rfl) hds 0

/-- The number of bytes a length text makes the reader take. The high bit that the
accumulator starts with is shifted out by the first digit. -/
def stringLength (ds : Bytes) : ℕ := if ds = [] then 2 ^ 31 else value ds % 2 ^ 32

theorem foldl_lengthStep (hds : Digits ds) : (ds.foldl lengthStep 0x80000000).toNat = stringLength ds := by
  have h := foldl_digits ofNat lengthStep (fun a c _ ↦ by rw [lengthStep, ofNat_add, ofNat_mul]; rfl) hds (2 ^ 31)
  have h31 : ofNat (2 ^ 31) = 0x80000000 := rfl
  rw [h31] at h
  rw [h, toNat_ofNat', valueFrom_eq, stringLength]
  cases ds with
  | nil => simp [value]
  | cons c ds =>
    have hmul : 2 ^ 31 * 10 ^ (c :: ds).length = 2 ^ 32 * (5 * 10 ^ ds.length) := by
      rw [length_cons, pow_succ]
      ring
    rw [if_neg (cons_ne_nil c ds), hmul, Nat.mul_add_mod]

theorem stringLength_lt (ds : Bytes) : stringLength ds < 2 ^ 32 := by
  rw [stringLength]
  split_ifs <;> omega

theorem length_add_one_gt (l t : UInt32) : (l + 1 > t ∨ l + 1 = 0) ↔ ¬ l.toNat < t.toNat := by
  have h₁ : (l + 1).toNat = (l.toNat + 1) % 2 ^ 32 := UInt32.toNat_add l 1
  have hl := l.toNat_lt
  have ht := t.toNat_lt
  have h0 : l + 1 = 0 ↔ (l + 1).toNat = 0 := ⟨fun h ↦ by rw [h]; rfl, fun h ↦ toNat.inj h⟩
  rw [gt_iff_lt, lt_iff_toNat_lt, h0, h₁]
  omega

theorem objectReadBencodeCString_digits (hds : Digits ds) (he : isDigit e = false) (t : Bytes) :
    objectReadBencodeCString (ds ++ e :: t) =
      if stringLength ds < (t.length + 1) % 2 ^ 32 ∧ e = ch ':' then
        some (t.take (stringLength ds), t.drop (stringLength ds)) else none := by
  rw [objectReadBencodeCString, digitLoop_digits _ _ hds he]
  simp only [length_add_one_gt, foldl_lengthStep hds, toNat_ofNat', length_cons]
  by_cases h : stringLength ds < (t.length + 1) % 2 ^ 32 <;> by_cases hc : e = ch ':' <;>
    simp only [h, hc, not_true_eq_false, not_false_eq_true, and_true, and_false, ↓reduceIte]

theorem objectReadBencodeCString_none (he : isDigit e = false) (hc : e ≠ ch ':') (t : Bytes) :
    objectReadBencodeCString (e :: t) = none := by
  have hnil : Digits [] := by simp [Digits]
  have h := objectReadBencodeCString_digits hnil he t
  rwa [if_neg fun hn ↦ hc hn.2, nil_append] at h

/-- What the string reader accepts: digits, a colon and the bytes it takes, with more
text left than they need even after the distance is cut to 32 bits. -/
theorem objectReadBencodeCString_eq_some {str : Bytes} : objectReadBencodeCString s = some (str, r) ↔
      ∃ ds, Digits ds ∧ s = ds ++ ch ':' :: (str ++ r) ∧ str.length = stringLength ds ∧
        str.length < (str.length + r.length + 1) % 2 ^ 32 := by
  constructor
  · intro h
    have hds : Digits (s.takeWhile isDigit) := fun c hc ↦ isDigit_of_mem_takeWhile hc
    have hs : s = s.takeWhile isDigit ++ s.dropWhile isDigit := takeWhile_append_dropWhile.symm
    cases ht : s.dropWhile isDigit with
    | nil =>
      rw [objectReadBencodeCString, digitLoop_eq, ht] at h
      simp at h
    | cons e t =>
      have he : isDigit e = false := by
        have := List.head?_dropWhile_not isDigit s
        rw [ht] at this
        simpa using this
      rw [ht] at hs
      rw [hs, objectReadBencodeCString_digits hds he] at h
      split_ifs at h with hc
      obtain ⟨hlt, rfl⟩ := hc
      cases h
      have hlen : (t.take (stringLength (s.takeWhile isDigit))).length =
          stringLength (s.takeWhile isDigit) := by
        rw [length_take]
        omega
      refine ⟨s.takeWhile isDigit, hds, ?_, hlen, ?_⟩
      · rwa [take_append_drop]
      · rw [← length_append, take_append_drop, hlen]
        exact hlt
  · rintro ⟨ds, hds, rfl, hlen, hlt⟩
    rw [objectReadBencodeCString_digits hds rfl, if_pos]
    · rw [← hlen, take_left, drop_left]
    · rw [← hlen, length_append]
      exact ⟨hlt, rfl⟩

def sign (neg : Bool) : Bytes := if neg then [ch '-'] else []

def denoted (neg : Bool) (ds : Bytes) : ℤ := if neg then -(value ds : ℤ) else value ds

theorem neg_foldl_valueStep (hds : Digits ds) (neg : Bool) :
    (if neg then -ds.foldl valueStep 0 else ds.foldl valueStep 0) = Int64.ofInt (denoted neg ds) := by
  rw [foldl_valueStep hds, denoted]
  cases neg
  · rfl
  · simp only [↓reduceIte, Int64.ofInt_neg]
    rfl

theorem isDigit_range {d : UInt8} : ¬ (d ≤ ch '0' ∨ ch '9' < d) ↔ isDigit d = true ∧ d ≠ ch '0' := by
  have h0 : (ch '0').toNat = 48 := rfl
  have h9 : (ch '9').toNat = 57 := rfl
  have hne : d ≠ ch '0' ↔ d.toNat ≠ 48 := by
    exact not_congr ⟨fun h ↦ h ▸ rfl, fun h ↦ UInt8.toNat.inj h⟩
  rw [isDigit_iff, hne, UInt8.le_iff_toNat_le, UInt8.lt_iff_toNat_lt, h0, h9]
  omega

def SignOk (neg : Bool) (ds : Bytes) : Prop := neg = true → ∃ d t, ds = d :: t ∧ d ≠ ch '0'

theorem objectReadBencodeCValue_text {neg : Bool} (hds : Digits ds) (hn : SignOk neg ds)
    (he : isDigit e = false) (hm : e ≠ ch '-') (v : Int64) (s : Bytes) :
    objectReadBencodeCValue (sign neg ++ ds ++ e :: s) v = (Int64.ofInt (denoted neg ds), e :: s) := by
  have hfold := neg_foldl_valueStep hds neg
  have hloop := digitLoop_digits valueStep 0 hds he s
  cases neg with
  | true =>
    obtain ⟨d, t, rfl, h0⟩ := hn rfl
    have hd := isDigit_range.mpr ⟨hds d mem_cons_self, h0⟩
    simp only [cons_append] at hloop
    simp only [sign, ↓reduceIte, cons_append, nil_append, objectReadBencodeCValue, if_neg hd, hloop]
    rw [← hfold, if_pos rfl]
  | false =>
    simp only [sign, Bool.false_eq_true, ↓reduceIte, nil_append]
    rw [← hfold, if_neg (by simp)]
    cases ds with
    | nil => simpa [objectReadBencodeCValue, hm] using hloop
    | cons d t =>
      have hd : d ≠ ch '-' := ne_of_isDigit (hds d mem_cons_self) rfl
      simpa [objectReadBencodeCValue, hd] using hloop

theorem objectReadBencodeCValue_eq {v : Int64} (hm : e ≠ ch '-') (h : objectReadBencodeCValue s 0 = (v, e :: r)) :
    ∃ neg ds, Digits ds ∧ SignOk neg ds ∧ s = sign neg ++ ds ++ e :: r ∧
      v = Int64.ofInt (denoted neg ds) := by
  -- Both loops stop at `e`, so the digits before it are the text that was read.
  have hsplit : ∀ t : Bytes, t.dropWhile isDigit = e :: r → t = t.takeWhile isDigit ++ e :: r := by
    intro t ht
    conv_lhs => rw [← takeWhile_append_dropWhile (l := t), ht]
  have hdig : ∀ t : Bytes, Digits (t.takeWhile isDigit) := fun t c hc ↦ isDigit_of_mem_takeWhile hc
  cases s with
  | nil => simp [objectReadBencodeCValue] at h
  | cons c t =>
    simp only [objectReadBencodeCValue] at h
    split_ifs at h with hc
    · subst hc
      cases t with
      | nil => simp at h; exact absurd h.2.1.symm hm
      | cons d t =>
        simp only at h
        split_ifs at h with hd
        · simp at h; exact absurd h.2.1.symm hm
        simp only [digitLoop_eq, Prod.mk.injEq] at h
        obtain ⟨hd, h0⟩ := isDigit_range.mp hd
        refine ⟨true, (d :: t).takeWhile isDigit, hdig _, ?_, ?_, ?_⟩
        · intro _
          exact ⟨d, t.takeWhile isDigit, takeWhile_cons_of_pos hd, h0⟩
        · simpa [sign] using hsplit _ h.2
        · rw [← neg_foldl_valueStep (hdig _), if_pos rfl, h.1]
    · simp only [digitLoop_eq, Prod.mk.injEq] at h
      refine ⟨false, (c :: t).takeWhile isDigit, hdig _, by simp [SignOk], ?_, ?_⟩
      · simpa [sign] using hsplit _ h.2
      · rw [← neg_foldl_valueStep (hdig _), if_neg (by simp), h.1]

open List

/-- The lexical parts of bencoded text. A string token has the text of its length and the
bytes that follow its colon. -/
inductive Token
  | integer (neg : Bool) (ds : Bytes)
  | string (ds str : Bytes)
  | list
  | map
  | close
  deriving DecidableEq

namespace Token

def text : Token → Bytes
  | integer neg ds => ch 'i' :: (sign neg ++ ds ++ [ch 'e'])
  | string ds str => ds ++ ch ':' :: str
  | list => [ch 'l']
  | map => [ch 'd']
  | close => [ch 'e']

def WellFormed : Token → Prop
  | integer _ ds => Digits ds
  | string ds str => Digits ds ∧ str.length = stringLength ds
  | list | map | close => True

end Token

abbrev Lexes (s : Bytes) (ts : List Token) (r : Bytes) : Prop := Cuts Token.text Token.WellFormed s ts r

variable {s s' ds ds' : Bytes} {t : Token}

theorem digits_append_inj (h : Digits ds) (h' : Digits ds') {e e' : UInt8}
    (he : isDigit e = false) (he' : isDigit e' = false)
    (heq : ds ++ e :: s = ds' ++ e' :: s') : ds = ds' ∧ e = e' ∧ s = s' := by
  obtain ⟨h₁, h₂⟩ := takeWhile_digits h he s
  obtain ⟨h₁', h₂'⟩ := takeWhile_digits h' he' s'
  rw [heq] at h₁ h₂
  have hc := h₂.symm.trans h₂'
  exact ⟨h₁.symm.trans h₁', (cons.inj hc).1, (cons.inj hc).2⟩

theorem sign_append_inj {neg neg' : Bool} (h : Digits ds) (h' : Digits ds')
    (heq : sign neg ++ ds ++ ch 'e' :: s = sign neg' ++ ds' ++ ch 'e' :: s') :
    neg = neg' ∧ ds = ds' ∧ s = s' := by
  -- A minus sign is no digit, so it cannot stand where the digits of the other text start.
  have hne : ∀ {d t u : Bytes}, Digits d → ch '-' :: t ≠ d ++ ch 'e' :: u := by
    intro d t u hd hc
    cases d with
    | nil => exact absurd (cons.inj hc).1 (by decide)
    | cons c d =>
      obtain rfl : ch '-' = c := (cons.inj hc).1
      exact absurd (hd _ mem_cons_self) (by decide)
  cases neg <;> cases neg' <;>
    simp only [sign, Bool.false_eq_true, ↓reduceIte, nil_append, cons_append] at heq
  · obtain ⟨hd, -, hs⟩ := digits_append_inj h h' rfl rfl heq
    exact ⟨rfl, hd, hs⟩
  · exact absurd heq.symm (hne h)
  · exact absurd heq (hne h')
  · obtain ⟨hd, -, hs⟩ := digits_append_inj h h' rfl rfl (cons.inj heq).2
    exact ⟨rfl, hd, hs⟩

namespace Token

theorem text_ne_nil (t : Token) : t.text ≠ [] := by
  cases t <;> simp [text]

theorem string_text_head {str : Bytes} (h : Digits ds) (s : Bytes)
    (heq : (string ds str).text ++ s = c :: s') : isDigit c = true ∨ c = ch ':' := by
  cases ds with
  | nil =>
    right
    simpa [text] using (cons.inj heq).1.symm
  | cons d ds =>
    left
    obtain rfl : d = c := (cons.inj heq).1
    exact h d mem_cons_self

theorem text_append_inj {t' : Token} (h : t.WellFormed) (h' : t'.WellFormed)
    (heq : t.text ++ s = t'.text ++ s') : t = t' ∧ s = s' := by
  have hstr : ∀ {ds str : Bytes}, (string ds str).WellFormed → ∀ {u : Token} {s s' : Bytes},
      (string ds str).text ++ s = u.text ++ s' → ∃ ds' str', u = string ds' str' := by
    intro ds str hw u s s' heq
    cases u with
    | string ds' str' => exact ⟨ds', str', rfl⟩
    | _ =>
      have := string_text_head hw.1 s heq
      exact absurd this (by decide)
  cases t with
  | string ds str =>
    obtain ⟨ds', str', rfl⟩ := hstr h heq
    simp only [text, append_assoc, cons_append] at heq
    obtain ⟨rfl, -, hs⟩ := digits_append_inj h.1 h'.1 rfl rfl heq
    obtain ⟨rfl, rfl⟩ := append_inj hs (h.2.trans h'.2.symm)
    exact ⟨rfl, rfl⟩
  | integer neg ds =>
    cases t' with
    | integer neg' ds' =>
      have hi : sign neg ++ ds ++ ch 'e' :: s = sign neg' ++ ds' ++ ch 'e' :: s' := by
        simpa [text] using heq
      obtain ⟨rfl, rfl, rfl⟩ := sign_append_inj h h' hi
      exact ⟨rfl, rfl⟩
    | string ds' str' =>
      obtain ⟨_, _, hc⟩ := hstr h' heq.symm
      cases hc
    | _ => exact absurd (cons.inj heq).1 (by decide)
  | _ =>
    cases t' with
    | string ds' str' =>
      obtain ⟨_, _, hc⟩ := hstr h' heq.symm
      cases hc
    | _ =>
      first
      | exact ⟨rfl, (cons.inj heq).2⟩
      | exact absurd (cons.inj heq).1 (by decide)

end Token

theorem Lexes.unique {ts us : List Token} {r : Bytes} (h : Lexes s ts r) (h' : Lexes s us r) : ts = us :=
  Cuts.unique Token.text_ne_nil (fun _ _ _ _ ht hu heq ↦ Token.text_append_inj ht hu heq) h h'

open Lib.Cursor Option

theorem objectReadBencodeCInteger_eq_some {s r : Bytes} {v : Int64} : objectReadBencodeCInteger s = some (v, r) ↔
      ∃ neg ds, Digits ds ∧ SignOk neg ds ∧ s = sign neg ++ ds ++ ch 'e' :: r ∧ v = Int64.ofInt (denoted neg ds) := by
  rw [objectReadBencodeCInteger.eq_def]
  constructor
  · intro h
    cases hv : objectReadBencodeCValue s 0 with
    | mk w t =>
      cases t with
      | nil => simp [hv] at h
      | cons e t =>
        simp only [hv] at h
        split_ifs at h with he
        subst he
        cases h
        exact objectReadBencodeCValue_eq (by decide) hv
  · rintro ⟨neg, ds, hds, hn, rfl, rfl⟩
    rw [objectReadBencodeCValue_text hds hn rfl (by decide)]
    simp

theorem objectReadBencodeCString_moves {s r str : Bytes} (h : objectReadBencodeCString s = some (str, r)) :
    r.length < s.length := by
  obtain ⟨ds, -, rfl, -, -⟩ := objectReadBencodeCString_eq_some.mp h
  simp only [length_append, length_cons]
  omega

theorem not_isDigit_iff {c : UInt8} : (c < ch '0' ∨ ch '9' < c) ↔ ¬ isDigit c = true := by
  have h0 : (ch '0').toNat = 48 := rfl
  have h9 : (ch '9').toNat = 57 := rfl
  rw [isDigit_iff, UInt8.lt_iff_toNat_lt, UInt8.lt_iff_toNat_lt, h0, h9]
  omega

section

variable {ω : Type}

def Reader.Moves (read : Reader ω) : Prop := ∀ s o r, read s = some (o, r) → r.length < s.length

namespace Rules

structure Moves (rules : Rules ω) : Prop where
  int : ∀ s v r, rules.int s = some (v, r) → r.length < s.length
  str : ∀ s str r, rules.str s = some (str, r) → r.length < s.length

variable {rules : Rules ω} {inner : Option (Reader ω)} {read : Reader ω} {c : UInt8} {s r : Bytes} {o : ω}

theorem readItem_i : rules.readItem inner (ch 'i' :: s) =
    (rules.int s).map fun p ↦ (rules.make (.value · p.1) false, p.2) := by
  rw [readItem, if_pos rfl]

theorem readItem_l : rules.readItem inner (ch 'l' :: s) =
    inner.bind fun read ↦ (readUntil (ch 'e') (rules.listStep read) ([], false) s).map
      fun p ↦ (rules.make (.list · p.1.1) p.1.2, p.2) := by
  rw [readItem, if_neg (by decide), if_pos rfl]

theorem readItem_d : rules.readItem inner (ch 'd' :: s) =
    inner.bind fun read ↦ (readUntil (ch 'e') (rules.mapStep read) ([], [], false) s).map
      fun p ↦ (rules.make (.map · p.1.1) p.1.2.2, p.2) := by
  rw [readItem, if_neg (by decide), if_neg (by decide), if_pos rfl]

theorem readItem_digit (hc : isDigit c = true) : rules.readItem inner (c :: s) =
      (rules.str (c :: s)).map fun p ↦ (rules.make (.string · p.1) false, p.2) := by
  have hne {e : UInt8} : isDigit e = false → c ≠ e := ne_of_isDigit hc
  rw [readItem, if_neg (hne rfl), if_neg (hne rfl), if_neg (hne rfl), if_neg (fun h ↦ not_isDigit_iff.mp h hc)]

theorem readItem_other (hi : c ≠ ch 'i') (hl : c ≠ ch 'l') (hd : c ≠ ch 'd') (hc : ¬ isDigit c = true) :
    rules.readItem inner (c :: s) = none := by
  rw [readItem, if_neg hi, if_neg hl, if_neg hd, if_pos (not_isDigit_iff.mpr hc)]

theorem readItem_list : rules.readItem inner (ch 'l' :: s) = some (o, r) ↔
      ∃ read l u, inner = some read ∧ readUntil (ch 'e') (rules.listStep read) ([], false) s = some ((l, u), r) ∧
        o = rules.make (.list · l) u := by
  rw [readItem_l]
  simp only [bind_eq_some_iff, map_eq_some_iff, Prod.mk.injEq, Prod.exists]
  constructor
  · rintro ⟨read, rfl, l, u, t, h, rfl, rfl⟩
    exact ⟨read, l, u, rfl, h, rfl⟩
  · rintro ⟨read, l, u, rfl, h, rfl⟩
    exact ⟨read, rfl, l, u, r, h, rfl, rfl⟩

theorem readItem_map : rules.readItem inner (ch 'd' :: s) = some (o, r) ↔
      ∃ read m prev u, inner = some read ∧
        readUntil (ch 'e') (rules.mapStep read) ([], [], false) s = some ((m, prev, u), r) ∧
        o = rules.make (.map · m) u := by
  rw [readItem_d]
  simp only [bind_eq_some_iff, map_eq_some_iff, Prod.mk.injEq, Prod.exists]
  constructor
  · rintro ⟨read, rfl, m, prev, u, t, h, rfl, rfl⟩
    exact ⟨read, m, prev, u, rfl, h, rfl⟩
  · rintro ⟨read, m, prev, u, rfl, h, rfl⟩
    exact ⟨read, rfl, m, prev, u, r, h, rfl, rfl⟩

theorem readItem_cases (h : rules.readItem inner s = some (o, r)) :
    (∃ t v, s = ch 'i' :: t ∧ rules.int t = some (v, r) ∧ o = rules.make (.value · v) false) ∨
    (∃ read l u t, inner = some read ∧ s = ch 'l' :: t ∧
      readUntil (ch 'e') (rules.listStep read) ([], false) t = some ((l, u), r) ∧ o = rules.make (.list · l) u) ∨
    (∃ read m prev u t, inner = some read ∧ s = ch 'd' :: t ∧
      readUntil (ch 'e') (rules.mapStep read) ([], [], false) t = some ((m, prev, u), r) ∧
      o = rules.make (.map · m) u) ∨
    (∃ c t str, s = c :: t ∧ isDigit c = true ∧ rules.str s = some (str, r) ∧
      o = rules.make (.string · str) false) := by
  cases s with
  | nil => cases h
  | cons c s =>
    by_cases hi : c = ch 'i'
    · subst hi
      rw [readItem_i, map_eq_some_iff] at h
      obtain ⟨⟨v, t⟩, hv, heq⟩ := h
      cases heq
      exact .inl ⟨s, v, rfl, hv, rfl⟩
    by_cases hl : c = ch 'l'
    · subst hl
      obtain ⟨read, l, u, hr, hloop, ho⟩ := readItem_list.mp h
      exact .inr (.inl ⟨read, l, u, s, hr, rfl, hloop, ho⟩)
    by_cases hd : c = ch 'd'
    · subst hd
      obtain ⟨read, m, prev, u, hr, hloop, ho⟩ := readItem_map.mp h
      exact .inr (.inr (.inl ⟨read, m, prev, u, s, hr, rfl, hloop, ho⟩))
    by_cases hc : isDigit c = true
    · rw [readItem_digit hc, map_eq_some_iff] at h
      obtain ⟨⟨str, t⟩, hs, heq⟩ := h
      cases heq
      exact .inr (.inr (.inr ⟨c, s, str, rfl, hc, hs, rfl⟩))
    · rw [readItem_other hi hl hd hc] at h
      cases h

theorem listStep_eq_some {b b' : List Object × Bool} : rules.listStep read b s = some (b', r) ↔
      ∃ o, read s = some (o, r) ∧ b' = (b.1 ++ [(rules.part o).1], b.2 || (rules.part o).2) := by
  simp only [listStep, map_eq_some_iff, Prod.mk.injEq, Prod.exists]
  constructor
  · rintro ⟨o, t, h, rfl, rfl⟩
    exact ⟨o, h, rfl⟩
  · rintro ⟨o, h, rfl⟩
    exact ⟨o, r, h, rfl, rfl⟩

theorem mapStep_eq_some {b b' : List (Bytes × Object) × Bytes × Bool} : rules.mapStep read b s = some (b', r) ↔
      ∃ str t o, rules.str s = some (str, t) ∧ read t = some (o, r) ∧
        b' = (OrderedMap.insert b.1 str (rules.part o).1, str,
          b.2.2 || (decide (str ≤ b.2.1) && !b.1.isEmpty) || (rules.part o).2) := by
  simp only [mapStep, Option.bind_eq_bind, bind_eq_some_iff, Prod.exists, some.injEq, Prod.mk.injEq]
  constructor
  · rintro ⟨str, t, h₁, o, r', h₂, rfl, rfl⟩
    exact ⟨str, t, o, h₁, h₂, rfl⟩
  · rintro ⟨str, t, o, h₁, h₂, rfl⟩
    exact ⟨str, t, h₁, o, r, h₂, rfl, rfl⟩

theorem consumes_listStep (h : read.Moves) : Consumes (rules.listStep read) := by
  intro b s b' r hs
  obtain ⟨o, hr, -⟩ := listStep_eq_some.mp hs
  exact h s o r hr

namespace Moves

variable (hR : rules.Moves)
include hR

theorem mapStep (h : read.Moves) : Consumes (rules.mapStep read) := by
  intro b s b' r hs
  obtain ⟨str, t, o, ht, hr, -⟩ := mapStep_eq_some.mp hs
  exact (h t o r hr).trans (hR.str s str t ht)

theorem readItem (h : ∀ read, inner = some read → read.Moves) : (rules.readItem inner).Moves := by
  intro s o r hs
  rcases readItem_cases hs with ⟨t, v, rfl, hv, -⟩ | ⟨read, l, u, t, hr, rfl, hl, -⟩ |
    ⟨read, m, prev, u, t, hr, rfl, hm, -⟩ | ⟨c, t, str, -, -, hstr, -⟩
  · exact (hR.int t v r hv).trans (Nat.lt_succ_self _)
  · exact (readUntil_consumes (consumes_listStep (h read hr)) _ _ _ _ hl).trans (Nat.lt_succ_self _)
  · exact (readUntil_consumes (hR.mapStep (h read hr)) _ _ _ _ hm).trans (Nat.lt_succ_self _)
  · exact hR.str _ _ _ hstr

theorem readLevels (n : ℕ) : (rules.readLevels n).Moves := by
  induction n with
  | zero => exact hR.readItem nofun
  | succ n ih =>
    apply hR.readItem
    intro read hread
    cases hread
    exact ih

end Moves

end Rules

end

open Rules

section

variable {inner : Option (Reader (Object × Bool))} {s r : Bytes} {o : Object} {u : Bool} {read : Reader (Object × Bool)}

@[simp] theorem cRules_str : cRules.str s = objectReadBencodeCString s := rfl

theorem mapStep_stop (read : Reader (Object × Bool)) (b : List (Bytes × Object) × Bytes × Bool) (s : Bytes) :
    cRules.mapStep read b (ch 'e' :: s) = none := by
  rw [mapStep, cRules_str, objectReadBencodeCString_none (by decide) (by decide)]
  rfl

theorem cRules_moves : cRules.Moves where
  int s v r h := by
    obtain ⟨neg, ds, -, -, rfl, -⟩ := objectReadBencodeCInteger_eq_some.mp h
    simp only [length_append, length_cons]
    omega
  str _ _ _ := objectReadBencodeCString_moves

theorem consumes_mapStep (h : read.Moves) : Consumes (cRules.mapStep read) := cRules_moves.mapStep h

theorem objectReadItem_integer : cRules.readItem inner (ch 'i' :: s) = some ((o, u), r) ↔
      ∃ neg ds, Digits ds ∧ SignOk neg ds ∧ s = sign neg ++ ds ++ ch 'e' :: r ∧
        o = .value 0 (Int64.ofInt (denoted neg ds)) ∧ u = false := by
  rw [readItem_i, map_eq_some_iff]
  constructor
  · rintro ⟨⟨v, t⟩, hv, heq⟩
    cases heq
    obtain ⟨neg, ds, hds, hn, rfl, rfl⟩ := objectReadBencodeCInteger_eq_some.mp hv
    exact ⟨neg, ds, hds, hn, rfl, rfl, rfl⟩
  · rintro ⟨neg, ds, hds, hn, rfl, rfl, rfl⟩
    exact ⟨_, objectReadBencodeCInteger_eq_some.mpr ⟨neg, ds, hds, hn, rfl, rfl⟩, rfl⟩

theorem objectReadItem_cases (h : cRules.readItem inner s = some ((o, u), r)) :
    (∃ neg ds, Digits ds ∧ SignOk neg ds ∧ s = (Token.integer neg ds).text ++ r ∧
      o = .value 0 (Int64.ofInt (denoted neg ds)) ∧ u = false) ∨
    (∃ read l t, inner = some read ∧ s = ch 'l' :: t ∧
      readUntil (ch 'e') (cRules.listStep read) ([], false) t = some ((l, u), r) ∧ o = .list 0 l) ∨
    (∃ read m prev t, inner = some read ∧ s = ch 'd' :: t ∧
      readUntil (ch 'e') (cRules.mapStep read) ([], [], false) t = some ((m, prev, u), r) ∧ o = .map 0 m) ∨
    (∃ c t str, s = c :: t ∧ isDigit c = true ∧ objectReadBencodeCString s = some (str, r) ∧
      o = .string 0 str ∧ u = false) := by
  rcases readItem_cases h with ⟨t, v, rfl, -, -⟩ | ⟨read, l, _, t, hr, hs, hl, ⟨⟩⟩ |
    ⟨read, m, prev, _, t, hr, hs, hm, ⟨⟩⟩ | ⟨c, t, str, hs, hc, hstr, ⟨⟩⟩
  · obtain ⟨neg, ds, hds, hn, rfl, ho, hu⟩ := objectReadItem_integer.mp h
    exact .inl ⟨neg, ds, hds, hn, by simp [Token.text], ho, hu⟩
  · exact .inr (.inl ⟨read, l, t, hr, hs, hl, rfl⟩)
  · exact .inr (.inr (.inl ⟨read, m, prev, t, hr, hs, hm, rfl⟩))
  · exact .inr (.inr (.inr ⟨c, t, str, hs, hc, hstr, rfl, rfl⟩))

/-- What holds of the switch, given that it holds of the reader one level down, holds of
the reader at every level. -/
theorem objectReadLevels_induction {motive : Bytes → Object → Bool → Bytes → Prop}
    (item : ∀ inner : Option (Reader (Object × Bool)), (∀ read, inner = some read → read.Moves) →
      (∀ read, inner = some read → ∀ s o u r, read s = some ((o, u), r) → motive s o u r) →
      ∀ s o u r, cRules.readItem inner s = some ((o, u), r) → motive s o u r)
    {n : ℕ} (h : cRules.readLevels n s = some ((o, u), r)) :
    motive s o u r := by
  induction n generalizing s o u r with
  | zero => exact item none (by simp) (by simp) s o u r h
  | succ n ih =>
    refine item (some (cRules.readLevels n)) ?_ ?_ s o u r h
    · intro read hr
      cases hr
      exact cRules_moves.readLevels n
    intro read hr s o u r hs
    cases hr
    exact ih hs

end

end LibTorrent
