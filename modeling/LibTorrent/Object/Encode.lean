import LibTorrent.Object.Basic

namespace LibTorrent

open Lib.Decimal

/-- `object_write_t`: takes the filled part of the buffer and returns the size of the
buffer to go on with. Failure is an exception. -/
abbrev WriteFunc (σ : Type) := σ → Bytes → Option (σ × ℕ)

/-- `object_write_data_t`, with the bytes between the start of the buffer and `pos`. -/
structure Output (σ : Type) where
  data : σ
  size : ℕ
  filled : Bytes

variable {σ : Type} (writeFunc : WriteFunc σ)

def Output.flush (out : Output σ) : Option (Output σ) :=
  (writeFunc out.data out.filled).map fun (data, size) ↦ ⟨data, size, []⟩

/-- The copy loop of `object_write_bencode_c_string`. The room left in the buffer is
converted to 32 bits before it is compared. -/
def copyLoop : ℕ → Output σ → Bytes → Option (Output σ)
  | _, out, [] => some out
  | 0, _, _ :: _ => none
  | n + 1, out, c :: src =>
    let len := min (src.length + 1) ((out.size - out.filled.length) % 2 ^ 32)
    let out := { out with filled := out.filled ++ (c :: src).take len }
    if out.filled.length = out.size then do
      let out ← out.flush writeFunc
      if out.size = 0 then some out else copyLoop n out ((c :: src).drop len)
    else copyLoop n out ((c :: src).drop len)

def objectWriteBencodeCString (src : Bytes) (out : Output σ) : Option (Output σ) :=
  copyLoop writeFunc (2 * src.length + 1) out (src.take (src.length % 2 ^ 32))

def objectWriteBencodeCChar (c : UInt8) (out : Output σ) : Option (Output σ) :=
  if out.filled.length = out.size then do
    let out ← out.flush writeFunc
    if out.size = 0 then some out else some { out with filled := out.filled ++ [c] }
  else some { out with filled := out.filled ++ [c] }

def digitsBack : ℕ → UInt64 → Bytes → Bytes
  | 0, _, buffer => buffer
  | n + 1, value, buffer =>
    if value = 0 then buffer else digitsBack n (value / 10) (ofDigit (value % 10).toNat :: buffer)

def objectWriteBencodeCValue (src : Int64) (out : Output σ) : Option (Output σ) :=
  if src = 0 then objectWriteBencodeCChar writeFunc (ch '0') out
  else if src < 0 then do
    let out ← objectWriteBencodeCChar writeFunc (ch '-') out
    objectWriteBencodeCString writeFunc (digitsBack 20 (-src.toUInt64) []) out
  else objectWriteBencodeCString writeFunc (digitsBack 20 src.toUInt64 []) out

def objectWriteBencodeCObjValue (value : Int64) (out : Output σ) : Option (Output σ) := do
  let out ← objectWriteBencodeCChar writeFunc (ch 'i') out
  let out ← objectWriteBencodeCValue writeFunc value out
  objectWriteBencodeCChar writeFunc (ch 'e') out

def objectWriteBencodeCObjString (str : Bytes) (out : Output σ) : Option (Output σ) := do
  let out ← objectWriteBencodeCValue writeFunc (Int64.ofNat (str.length % 2 ^ 32)) out
  let out ← objectWriteBencodeCChar writeFunc (ch ':') out
  objectWriteBencodeCString writeFunc str out

/-- Text between an opening character and `e`, for the raw list and map kinds. -/
def objectWriteRaw (opening : UInt8) (raw : Bytes) (out : Output σ) : Option (Output σ) := do
  let out ← objectWriteBencodeCChar writeFunc opening out
  let out ← objectWriteBencodeCString writeFunc raw out
  objectWriteBencodeCChar writeFunc (ch 'e') out

mutual

/-- `object_write_bencode_c_object`. Empty elements and those with a flag of the mask are
left out. -/
def objectWriteBencodeCObject (skipMask : UInt32) : Object → Output σ → Option (Output σ)
  | .none _, out => some out
  | .rawBencode _ raw, out => objectWriteBencodeCString writeFunc raw out
  | .rawString _ raw, out => objectWriteBencodeCObjString writeFunc raw out
  | .rawList _ raw, out => objectWriteRaw writeFunc (ch 'l') raw out
  | .rawMap _ raw, out => objectWriteRaw writeFunc (ch 'd') raw out
  | .value _ v, out => objectWriteBencodeCObjValue writeFunc v out
  | .string _ s, out => objectWriteBencodeCObjString writeFunc s out
  | .list _ l, out => do
    let out ← objectWriteBencodeCChar writeFunc (ch 'l') out
    let out ← objectWriteList skipMask l out
    objectWriteBencodeCChar writeFunc (ch 'e') out
  | .map _ m, out => do
    let out ← objectWriteBencodeCChar writeFunc (ch 'd') out
    let out ← objectWriteMap skipMask m out
    objectWriteBencodeCChar writeFunc (ch 'e') out
  | .dictKey _ _ _, _ => none

def objectWriteList (skipMask : UInt32) : List Object → Output σ → Option (Output σ)
  | [], out => some out
  | o :: l, out =>
    if o.isEmpty ∨ o.flags &&& skipMask ≠ 0 then objectWriteList skipMask l out else do
      let out ← objectWriteBencodeCObject skipMask o out
      objectWriteList skipMask l out

def objectWriteMap (skipMask : UInt32) : List (Bytes × Object) → Output σ → Option (Output σ)
  | [], out => some out
  | (k, o) :: m, out =>
    if o.isEmpty ∨ o.flags &&& skipMask ≠ 0 then objectWriteMap skipMask m out else do
      let out ← objectWriteBencodeCObjString writeFunc k out
      let out ← objectWriteBencodeCObject skipMask o out
      objectWriteMap skipMask m out

end

/-- `object_write_bencode_c`: a buffer that holds nothing is not handed over again. -/
def objectWriteBencodeC (data : σ) (size : ℕ) (o : Object) (skipMask : UInt32) :
    Option (σ × ℕ) := do
  let out ← if o.flags &&& skipMask = 0 then
    objectWriteBencodeCObject writeFunc skipMask o ⟨data, size, []⟩ else some ⟨data, size, []⟩
  if out.filled = [] then some (out.data, out.size) else writeFunc out.data out.filled

/-- `object_write_to_stream` on a stream that does not go bad. -/
def objectWriteToStream : WriteFunc Bytes := fun data b ↦ some (data ++ b, b.length)

def objectWriteToSize : WriteFunc UInt64 := fun data b ↦ some (data + UInt64.ofNat b.length, b.length)

/-- `object_write_to_buffer`, with the bytes that the caller then finds in its buffer. -/
def objectWriteToBuffer : WriteFunc Bytes := fun data b ↦ if b = [] then none else some (data ++ b, 0)

open Int64 Object

def integerText (v : ℤ) : Bytes := if v < 0 then ch '-' :: decimal v.natAbs else decimal v.natAbs

def stringText (s : Bytes) : Bytes := decimal s.length ++ ch ':' :: s

namespace Object

mutual

def encode (skipMask : UInt32) : Object → Bytes
  | none _ | dictKey _ _ _ => []
  | rawBencode _ r => r
  | rawString _ r => stringText r
  | rawList _ r => ch 'l' :: (r ++ [ch 'e'])
  | rawMap _ r => ch 'd' :: (r ++ [ch 'e'])
  | value _ v => ch 'i' :: (integerText v.toInt ++ [ch 'e'])
  | string _ s => stringText s
  | list _ l => ch 'l' :: (encodeList skipMask l ++ [ch 'e'])
  | map _ m => ch 'd' :: (encodeMap skipMask m ++ [ch 'e'])

def encodeList (skipMask : UInt32) : List Object → Bytes
  | [] => []
  | o :: l =>
    if o.isEmpty ∨ o.flags &&& skipMask ≠ 0 then encodeList skipMask l
    else encode skipMask o ++ encodeList skipMask l

def encodeMap (skipMask : UInt32) : List (Bytes × Object) → Bytes
  | [] => []
  | (k, o) :: m =>
    if o.isEmpty ∨ o.flags &&& skipMask ≠ 0 then encodeMap skipMask m
    else stringText k ++ (encode skipMask o ++ encodeMap skipMask m)

end

mutual

/-- No string is longer than its 32-bit length says, and no internal key pair is to be
written. -/
def Encodable (skipMask : UInt32) : Object → Prop
  | none _ | value _ _ => True
  | rawBencode _ r | rawString _ r | rawList _ r | rawMap _ r => r.length < 2 ^ 32
  | string _ s => s.length < 2 ^ 32
  | list _ l => EncodableList skipMask l
  | map _ m => EncodableMap skipMask m
  | dictKey _ _ _ => False

def EncodableList (skipMask : UInt32) : List Object → Prop
  | [] => True
  | o :: l => (o.isEmpty ∨ o.flags &&& skipMask ≠ 0 ∨ Encodable skipMask o) ∧ EncodableList skipMask l

def EncodableMap (skipMask : UInt32) : List (Bytes × Object) → Prop
  | [] => True
  | (k, o) :: m =>
    (o.isEmpty ∨ o.flags &&& skipMask ≠ 0 ∨ (k.length < 2 ^ 32 ∧ Encodable skipMask o)) ∧ EncodableMap skipMask m

end

end Object

inductive Prim
  | char (c : UInt8)
  | str (s : Bytes)

namespace Prim

def bytes : Prim → Bytes
  | char c => [c]
  | str s => s

def Short : Prim → Prop
  | char _ => True
  | str s => s.length < 2 ^ 32

def write {σ : Type} (writeFunc : WriteFunc σ) : Prim → Output σ → Option (Output σ)
  | char c => objectWriteBencodeCChar writeFunc c
  | str s => objectWriteBencodeCString writeFunc s

end Prim

def runScript {σ : Type} (writeFunc : WriteFunc σ) : List Prim → Output σ → Option (Output σ)
  | [], out => some out
  | p :: ps, out => (p.write writeFunc out).bind (runScript writeFunc ps)

def scriptText (ps : List Prim) : Bytes := ps.flatMap Prim.bytes

def valueScript (v : Int64) : List Prim :=
  if v = 0 then [.char (ch '0')]
  else if v < 0 then [.char (ch '-'), .str (decimal v.toInt.natAbs)]
  else [.str (decimal v.toInt.natAbs)]

def stringScript (s : Bytes) : List Prim := valueScript (ofNat s.length) ++ [.char (ch ':'), .str s]

namespace Object

mutual

def script (skipMask : UInt32) : Object → List Prim
  | none _ | dictKey _ _ _ => []
  | rawBencode _ r => [.str r]
  | rawString _ r => stringScript r
  | rawList _ r => [.char (ch 'l'), .str r, .char (ch 'e')]
  | rawMap _ r => [.char (ch 'd'), .str r, .char (ch 'e')]
  | value _ v => .char (ch 'i') :: (valueScript v ++ [.char (ch 'e')])
  | string _ s => stringScript s
  | list _ l => .char (ch 'l') :: (scriptList skipMask l ++ [.char (ch 'e')])
  | map _ m => .char (ch 'd') :: (scriptMap skipMask m ++ [.char (ch 'e')])

def scriptList (skipMask : UInt32) : List Object → List Prim
  | [] => []
  | o :: l =>
    if o.isEmpty ∨ o.flags &&& skipMask ≠ 0 then scriptList skipMask l
    else script skipMask o ++ scriptList skipMask l

def scriptMap (skipMask : UInt32) : List (Bytes × Object) → List Prim
  | [] => []
  | (k, o) :: m =>
    if o.isEmpty ∨ o.flags &&& skipMask ≠ 0 then scriptMap skipMask m
    else stringScript k ++ (script skipMask o ++ scriptMap skipMask m)

end

end Object

theorem digitsBack_eq (n : ℕ) (v : UInt64) (hv : v.toNat < 10 ^ n) (b : Bytes) :
    digitsBack n v b = ((Nat.digits 10 v.toNat).map ofDigit).reverse ++ b := by
  induction n generalizing v b with
  | zero =>
    have h0 : v.toNat = 0 := by simpa using hv
    simp [digitsBack, h0]
  | succ n ih =>
    rw [digitsBack]
    split_ifs with h
    · subst h
      simp
    have hne : v.toNat ≠ 0 := fun h0 ↦ h (UInt64.toNat.inj h0)
    have hdiv : (v / 10).toNat = v.toNat / 10 := UInt64.toNat_div v 10
    have hmod := UInt64.toNat_mod v 10
    rw [ih (v / 10) (by rw [hdiv]; exact Nat.div_lt_of_lt_mul (by rw [pow_succ] at hv; omega)),
      hdiv, hmod, Nat.digits_def' (by omega) (Nat.pos_of_ne_zero hne)]
    simp

theorem digitsBack_decimal {v : UInt64} (hv : v ≠ 0) : digitsBack 20 v [] = decimal v.toNat := by
  have hlt : v.toNat < 10 ^ 20 := lt_trans v.toNat_lt (by norm_num)
  have hne : v.toNat ≠ 0 := fun h0 ↦ hv (UInt64.toNat.inj h0)
  rw [digitsBack_eq 20 v hlt, List.append_nil, decimal, if_neg hne]

theorem length_decimal_le {n k : ℕ} (hk : 0 < k) (hn : n < 10 ^ k) : (decimal n).length ≤ k := by
  rw [decimal]
  split_ifs
  · exact hk
  · simpa using (Nat.digits_length_le_iff (by omega) n).mpr hn

theorem int64_toInt_eq (v : Int64) :
    v.toInt = if 2 * v.toUInt64.toNat < 2 ^ 64 then (v.toUInt64.toNat : ℤ) else v.toUInt64.toNat - 2 ^ 64 :=
  BitVec.toInt_eq_toNat_cond v.toBitVec

theorem toNat_toUInt64 {v : Int64} (h : ¬ v < 0) : v.toUInt64.toNat = v.toInt.natAbs := by
  have h0 : ¬ v.toInt < 0 := fun hn ↦ h (lt_iff_toInt_lt.mpr hn)
  have hlt := v.toUInt64.toNat_lt
  have hv := int64_toInt_eq v
  split_ifs at hv <;> omega

theorem toNat_neg_toUInt64 {v : Int64} (h : v < 0) : (-v.toUInt64).toNat = v.toInt.natAbs := by
  have h0 : v.toInt < 0 := lt_iff_toInt_lt.mp h
  have hv := int64_toInt_eq v
  have hs : UInt64.size = 2 ^ 64 := rfl
  rw [UInt64.toNat_neg, hs]
  split_ifs at hv <;> omega

/-- The operation makes the calls of a script, whose text is `b`. -/
structure Scripted {σ : Type} (writeFunc : WriteFunc σ) (f : Output σ → Option (Output σ))
    (ps : List Prim) (b : Bytes) : Prop where
  run : ∀ out, f out = runScript writeFunc ps out
  text : scriptText ps = b
  short : ∀ p ∈ ps, p.Short

section

variable {σ : Type} {writeFunc : WriteFunc σ}

theorem runScript_append (ps qs : List Prim) (out : Output σ) :
    runScript writeFunc (ps ++ qs) out = (runScript writeFunc ps out).bind (runScript writeFunc qs) := by
  induction ps generalizing out with
  | nil => rfl
  | cons p ps ih =>
    simp only [List.cons_append, runScript]
    cases p.write writeFunc out with
    | none => rfl
    | some out => exact ih out

theorem Scripted.bind {f g : Output σ → Option (Output σ)} {ps qs : List Prim} {a b : Bytes}
    (hf : Scripted writeFunc f ps a) (hg : Scripted writeFunc g qs b) :
    Scripted writeFunc (fun out ↦ (f out).bind g) (ps ++ qs) (a ++ b) where
  run := by
    intro out
    rw [runScript_append, ← hf.run]
    congr 1
    exact funext hg.run
  text := by rw [scriptText, List.flatMap_append, ← hf.text, ← hg.text, scriptText, scriptText]
  short := fun p hp ↦ (List.mem_append.mp hp).elim (hf.short p) (hg.short p)

theorem scripted_char (c : UInt8) : Scripted writeFunc (objectWriteBencodeCChar writeFunc c) [.char c] [c] where
  run out := by
    simp only [runScript, Prim.write]
    cases objectWriteBencodeCChar writeFunc c out <;> rfl
  text := rfl
  short := by simp [Prim.Short]

theorem scripted_string {s : Bytes} (hs : s.length < 2 ^ 32) :
    Scripted writeFunc (objectWriteBencodeCString writeFunc s) [.str s] s where
  run out := by
    simp only [runScript, Prim.write]
    cases objectWriteBencodeCString writeFunc s out <;> rfl
  text := by simp [scriptText, Prim.bytes]
  short := by simpa [Prim.Short] using hs

theorem scripted_nil : Scripted writeFunc (fun out ↦ some out) [] [] where
  run _ := rfl
  text := rfl
  short := by simp

theorem length_decimal_natAbs (v : Int64) : (decimal v.toInt.natAbs).length < 2 ^ 32 := by
  have hlo := v.le_toInt
  have hhi := v.toInt_lt
  have hle : (decimal v.toInt.natAbs).length ≤ 20 := length_decimal_le (by omega) (by omega)
  omega

theorem scripted_value (v : Int64) :
    Scripted writeFunc (objectWriteBencodeCValue writeFunc v) (valueScript v) (integerText v.toInt) := by
  by_cases h0 : v = 0
  · subst h0
    exact scripted_char (ch '0')
  have hi0 : v.toInt ≠ 0 := fun h ↦ h0 (toInt.inj h)
  have hdigits : Scripted writeFunc _ _ _ := scripted_string (length_decimal_natAbs v)
  by_cases hneg : v < 0
  · have hi : v.toInt < 0 := lt_iff_toInt_lt.mp hneg
    have hd : digitsBack 20 (-v.toUInt64) [] = decimal v.toInt.natAbs := by
      have hn := toNat_neg_toUInt64 hneg
      rw [← hn]
      exact digitsBack_decimal fun hz ↦ by simp [hz] at hn; omega
    have hw := (scripted_char (ch '-')).bind hdigits
    rw [valueScript, if_neg h0, if_pos hneg, integerText, if_pos hi]
    refine ⟨fun out ↦ ?_, hw.text, hw.short⟩
    rw [objectWriteBencodeCValue, if_neg h0, if_pos hneg, hd]
    exact hw.run out
  · have hi : ¬ v.toInt < 0 := fun hn ↦ hneg (lt_iff_toInt_lt.mpr hn)
    have hd : digitsBack 20 v.toUInt64 [] = decimal v.toInt.natAbs := by
      have hn := toNat_toUInt64 hneg
      rw [← hn]
      exact digitsBack_decimal fun hz ↦ by simp [hz] at hn; omega
    rw [valueScript, if_neg h0, if_neg hneg, integerText, if_neg hi]
    refine ⟨fun out ↦ ?_, hdigits.text, hdigits.short⟩
    rw [objectWriteBencodeCValue, if_neg h0, if_neg hneg, hd]
    exact hdigits.run out

theorem scripted_objString {s : Bytes} (hs : s.length < 2 ^ 32) :
    Scripted writeFunc (objectWriteBencodeCObjString writeFunc s) (stringScript s) (stringText s) := by
  have hv : Scripted writeFunc _ _ _ := scripted_value (ofNat s.length)
  have ht : integerText (ofNat s.length).toInt = decimal s.length := by
    rw [toInt_ofNat_of_lt (by omega), integerText, if_neg (by omega), Int.natAbs_natCast]
  rw [ht] at hv
  have hw := hv.bind ((scripted_char (ch ':')).bind (scripted_string hs))
  refine ⟨fun out ↦ ?_, hw.text, hw.short⟩
  rw [objectWriteBencodeCObjString, Nat.mod_eq_of_lt hs]
  exact hw.run out

theorem scripted_raw (c : UInt8) {raw : Bytes} (hr : raw.length < 2 ^ 32) :
    Scripted writeFunc (objectWriteRaw writeFunc c raw) [.char c, .str raw, .char (ch 'e')]
      (c :: (raw ++ [ch 'e'])) :=
  (scripted_char c).bind ((scripted_string hr).bind (scripted_char (ch 'e')))

mutual

theorem scripted_object (skipMask : UInt32) : (o : Object) → o.Encodable skipMask →
      Scripted writeFunc (objectWriteBencodeCObject writeFunc skipMask o) (o.script skipMask)
        (o.encode skipMask)
  | .none _, _ => scripted_nil
  | .rawBencode _ _, ho => scripted_string ho
  | .rawString _ _, ho => scripted_objString ho
  | .rawList _ _, ho => scripted_raw (ch 'l') ho
  | .rawMap _ _, ho => scripted_raw (ch 'd') ho
  | .value _ v, _ => (scripted_char (ch 'i')).bind ((scripted_value v).bind (scripted_char (ch 'e')))
  | .string _ _, ho => scripted_objString ho
  | .list _ l, ho => (scripted_char (ch 'l')).bind ((scripted_list skipMask l ho).bind (scripted_char (ch 'e')))
  | .map _ m, ho => (scripted_char (ch 'd')).bind ((scripted_map skipMask m ho).bind (scripted_char (ch 'e')))

theorem scripted_list (skipMask : UInt32) : (l : List Object) → Object.EncodableList skipMask l →
      Scripted writeFunc (objectWriteList writeFunc skipMask l) (scriptList skipMask l)
        (encodeList skipMask l)
  | [], _ => scripted_nil
  | o :: l, ho => by
    have hl := scripted_list skipMask l ho.2
    by_cases hskip : o.isEmpty ∨ o.flags &&& skipMask ≠ 0
    · rw [encodeList, scriptList, if_pos hskip, if_pos hskip]
      refine ⟨fun out ↦ ?_, hl.text, hl.short⟩
      rw [objectWriteList, if_pos hskip]
      exact hl.run out
    have hobj : o.Encodable skipMask := by
      have := ho.1
      tauto
    have hw := (scripted_object skipMask o hobj).bind hl
    rw [encodeList, scriptList, if_neg hskip, if_neg hskip]
    refine ⟨fun out ↦ ?_, hw.text, hw.short⟩
    rw [objectWriteList, if_neg hskip]
    exact hw.run out

theorem scripted_map (skipMask : UInt32) : (m : List (Bytes × Object)) → Object.EncodableMap skipMask m →
      Scripted writeFunc (objectWriteMap writeFunc skipMask m) (scriptMap skipMask m)
        (encodeMap skipMask m)
  | [], _ => scripted_nil
  | (k, o) :: m, ho => by
    have hm := scripted_map skipMask m ho.2
    by_cases hskip : o.isEmpty ∨ o.flags &&& skipMask ≠ 0
    · rw [encodeMap, scriptMap, if_pos hskip, if_pos hskip]
      refine ⟨fun out ↦ ?_, hm.text, hm.short⟩
      rw [objectWriteMap, if_pos hskip]
      exact hm.run out
    have hko : k.length < 2 ^ 32 ∧ Object.Encodable skipMask o := by
      have := ho.1
      tauto
    have hw := (scripted_objString hko.1).bind ((scripted_object skipMask o hko.2).bind hm)
    rw [encodeMap, scriptMap, if_neg hskip, if_neg hskip]
    refine ⟨fun out ↦ ?_, hw.text, hw.short⟩
    rw [objectWriteMap, if_neg hskip]
    exact hw.run out

end

end

end LibTorrent
