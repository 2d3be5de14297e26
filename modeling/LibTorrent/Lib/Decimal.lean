import Mathlib.Data.Nat.Digits.Lemmas

namespace Lib.Decimal

open List Nat

/-- A byte string, as held by a character buffer. -/
abbrev Bytes := List UInt8

abbrev ch (c : Char) : UInt8 := c.toUInt8

def ascii (s : String) : Bytes := s.toList.map Char.toUInt8

def isDigit (c : UInt8) : Bool := ch '0' ≤ c && c ≤ ch '9'

def digitVal (c : UInt8) : ℕ := c.toNat - 48

def ofDigit (d : ℕ) : UInt8 := UInt8.ofNat (48 + d)

def valueFrom (a : ℕ) (ds : Bytes) : ℕ := ds.foldl (fun a c ↦ a * 10 + digitVal c) a

def value (ds : Bytes) : ℕ := valueFrom 0 ds

def decimal (n : ℕ) : Bytes := if n = 0 then [ch '0'] else ((digits 10 n).map ofDigit).reverse

/-- A digit string that is nonempty and has no superfluous leading zero. -/
def Canonical (ds : Bytes) : Prop :=
  ds ≠ [] ∧ (∀ c ∈ ds, isDigit c = true) ∧ (ds.head? = some (ch '0') → ds.length = 1)

instance (ds : Bytes) : Decidable (Canonical ds) := inferInstanceAs (Decidable (_ ∧ _ ∧ _))

theorem isDigit_iff (c : UInt8) : isDigit c = true ↔ 48 ≤ c.toNat ∧ c.toNat ≤ 57 := by
  simp only [isDigit, Bool.and_eq_true, decide_eq_true_eq, UInt8.le_iff_toNat_le]
  exact .rfl

variable {d n : ℕ} {c : UInt8} {ds : Bytes}

theorem ne_of_isDigit {e : UInt8} (hc : isDigit c = true) (he : isDigit e = false) : c ≠ e := by
  rintro rfl
  exact Bool.false_ne_true (he.symm.trans hc)

theorem isDigit_ofDigit (h : d < 10) : isDigit (ofDigit d) = true := by
  rw [isDigit_iff, ofDigit, UInt8.toNat_ofNat']
  omega

theorem digitVal_ofDigit (h : d < 10) : digitVal (ofDigit d) = d := by
  rw [digitVal, ofDigit, UInt8.toNat_ofNat']
  omega

theorem ofDigit_digitVal (h : isDigit c = true) : ofDigit (digitVal c) = c := by
  obtain ⟨h₀, h₁⟩ := (isDigit_iff c).mp h
  apply UInt8.toNat.inj
  rw [ofDigit, digitVal, UInt8.toNat_ofNat']
  omega

theorem digitVal_lt (h : isDigit c = true) : digitVal c < 10 := by
  have := (isDigit_iff c).mp h
  rw [digitVal]
  omega

theorem digitVal_eq_zero (h : isDigit c = true) : digitVal c = 0 ↔ c = ch '0' := by
  obtain ⟨h₀, h₁⟩ := (isDigit_iff c).mp h
  constructor
  · intro hz
    apply UInt8.toNat.inj
    have h48 : (ch '0').toNat = 48 := rfl
    rw [digitVal] at hz
    omega
  · rintro rfl
    rfl

@[simp] theorem valueFrom_nil (a : ℕ) : valueFrom a [] = a := rfl

@[simp] theorem valueFrom_cons (a : ℕ) (c : UInt8) (ds : Bytes) :
    valueFrom a (c :: ds) = valueFrom (a * 10 + digitVal c) ds := by
  simp only [valueFrom, foldl_cons]

theorem valueFrom_eq (a : ℕ) (ds : Bytes) : valueFrom a ds = a * 10 ^ ds.length + value ds := by
  induction ds generalizing a with
  | nil => simp [value]
  | cons c ds ih =>
    have hv : value (c :: ds) = digitVal c * 10 ^ ds.length + value ds := by
      rw [value, valueFrom_cons, ih, zero_mul, zero_add]
    rw [valueFrom_cons, ih, hv, length_cons, pow_succ]
    ring

theorem value_cons (c : UInt8) (ds : Bytes) : value (c :: ds) = digitVal c * 10 ^ ds.length + value ds := by
  rw [value, valueFrom_cons, valueFrom_eq, zero_mul, zero_add]

theorem value_eq_ofDigits (ds : Bytes) : value ds = ofDigits 10 (ds.map digitVal).reverse := by
  induction ds with
  | nil => rfl
  | cons c ds ih =>
    rw [value_cons, ih, map_cons, reverse_cons, ofDigits_append]
    simp only [length_reverse, length_map, ofDigits_singleton]
    ring

theorem map_digitVal_ofDigit {l : List ℕ} (h : ∀ d ∈ l, d < 10) : (l.map ofDigit).map digitVal = l := by
  rw [map_map]
  conv_rhs => rw [← map_id l]
  exact map_congr_left fun d hd ↦ digitVal_ofDigit (h d hd)

theorem map_ofDigit_digitVal (h : ∀ c ∈ ds, isDigit c = true) : (ds.map digitVal).map ofDigit = ds := by
  rw [map_map]
  conv_rhs => rw [← map_id ds]
  exact map_congr_left fun c hc ↦ ofDigit_digitVal (h c hc)

theorem value_decimal (n : ℕ) : value (decimal n) = n := by
  rw [decimal]
  split_ifs with h
  · subst h; rfl
  · have hd : ∀ d ∈ digits 10 n, d < 10 := fun d hd ↦ digits_lt_base (by omega) hd
    rw [value_eq_ofDigits, map_reverse, reverse_reverse, map_digitVal_ofDigit hd, ofDigits_digits]

theorem isDigit_of_mem_decimal (h : c ∈ decimal n) : isDigit c = true := by
  rw [decimal] at h
  split_ifs at h with hn
  · rw [mem_singleton.mp h]; rfl
  · obtain ⟨d, hd, rfl⟩ := mem_map.mp (mem_reverse.mp h)
    exact isDigit_ofDigit (digits_lt_base (by omega) hd)

theorem decimal_ne_nil (n : ℕ) : decimal n ≠ [] := by
  rw [decimal]
  split_ifs with h
  · simp
  · simpa [digits_eq_nil_iff_eq_zero] using h

theorem decimal_head (h : n ≠ 0) : (decimal n).head? ≠ some (ch '0') := by
  have hd : digits 10 n ≠ [] := digits_ne_nil_iff_ne_zero.mpr h
  have hlast := getLast_digit_ne_zero 10 h
  rw [decimal, if_neg h, List.head?_reverse, List.getLast?_map, List.getLast?_eq_some_getLast hd]
  simp only [Option.map_some, ne_eq, Option.some.injEq]
  have hlt : (digits 10 n).getLast hd < 10 :=
    digits_lt_base (by omega) (getLast_mem hd)
  rw [← digitVal_eq_zero (isDigit_ofDigit hlt), digitVal_ofDigit hlt]
  exact hlast

theorem canonical_decimal (n : ℕ) : Canonical (decimal n) := by
  refine ⟨decimal_ne_nil n, fun c hc ↦ isDigit_of_mem_decimal hc, fun h ↦ ?_⟩
  by_cases hn : n = 0
  · subst hn; rfl
  · exact absurd h (decimal_head hn)

theorem decimal_value (h : Canonical ds) : decimal (value ds) = ds := by
  obtain ⟨hne, hdig, hzero⟩ := h
  obtain ⟨c, ds, rfl⟩ := exists_cons_of_ne_nil hne
  have hc : isDigit c = true := hdig c mem_cons_self
  by_cases h0 : c = ch '0'
  · subst h0
    have hlen := hzero rfl
    have hnil : ds = [] := length_eq_zero_iff.mp (by simpa using hlen)
    subst hnil
    rfl
  have hpos : value (c :: ds) ≠ 0 := by
    rw [value_cons]
    have hd := (digitVal_eq_zero hc).not.mpr h0
    have hp : 0 < 10 ^ ds.length := by positivity
    have := mul_pos (pos_of_ne_zero hd) hp
    omega
  have hdigits : digits 10 (value (c :: ds)) = ((c :: ds).map digitVal).reverse := by
    rw [value_eq_ofDigits]
    apply digits_ofDigits 10 (by omega)
    · intro d hd
      obtain ⟨b, hb, rfl⟩ := mem_map.mp (mem_reverse.mp hd)
      exact digitVal_lt (hdig b hb)
    intro hnil
    simp only [map_cons, reverse_cons, ne_eq, getLast_concat]
    exact (digitVal_eq_zero hc).not.mpr h0
  rw [decimal, if_neg hpos, hdigits, map_reverse, reverse_reverse, map_ofDigit_digitVal hdig]

/-- Accumulating digits in another number type is reading them and converting once. -/
theorem foldl_digits {R : Type} (cast : ℕ → R) (f : R → UInt8 → R)
    (h : ∀ a c, isDigit c = true → f (cast a) c = cast (a * 10 + digitVal c))
    (hds : ∀ c ∈ ds, isDigit c = true) (a : ℕ) :
    ds.foldl f (cast a) = cast (valueFrom a ds) := by
  induction ds generalizing a with
  | nil => rfl
  | cons c ds ih =>
    rw [foldl_cons, h a c (hds c mem_cons_self), valueFrom_cons]
    exact ih (fun b hb ↦ hds b (mem_cons_of_mem c hb)) _

theorem isDigit_of_mem_takeWhile {s : Bytes} (h : c ∈ s.takeWhile isDigit) : isDigit c = true := by
  induction s with
  | nil => simp at h
  | cons b s ih =>
    rw [takeWhile_cons] at h
    split_ifs at h with hb
    · rcases mem_cons.mp h with rfl | h
      · exact hb
      · exact ih h
    · simp at h

theorem takeWhile_digits (hds : ∀ c ∈ ds, isDigit c = true) {e : UInt8} (he : isDigit e = false) (s : Bytes) :
    (ds ++ e :: s).takeWhile isDigit = ds ∧ (ds ++ e :: s).dropWhile isDigit = e :: s := by
  induction ds with
  | nil => simp [he]
  | cons c ds ih =>
    have hc : isDigit c = true := hds c mem_cons_self
    obtain ⟨h₁, h₂⟩ := ih fun b hb ↦ hds b (mem_cons_of_mem c hb)
    simp only [cons_append, takeWhile_cons, dropWhile_cons, hc, if_true, h₁, h₂, and_self]

end Lib.Decimal
