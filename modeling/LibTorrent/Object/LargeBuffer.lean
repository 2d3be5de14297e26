import LibTorrent.Object.Sink

namespace LibTorrent

open Lib.Decimal List Nat Option Output

def Output.total (out : Output Bytes) : ℕ := out.data.length + out.filled.length

/-- The operation adds at most `len` bytes, and that many only under a condition. -/
def Adds (f : Output Bytes → Option (Output Bytes)) (len : ℕ) (full : Prop) : Prop :=
  ∀ out out', f out = some out' → out'.total ≤ out.total + len ∧ (out'.total = out.total + len → full)

variable {n size : ℕ}

section Adds

variable {f g : Output Bytes → Option (Output Bytes)} {a b : ℕ} {P Q : Prop}

theorem Adds.bind (hf : Adds f a P) (hg : Adds g b Q) : Adds (fun out ↦ (f out).bind g) (a + b) (P ∧ Q) := by
  intro out out' h
  obtain ⟨mid, hmid, h⟩ := bind_eq_some_iff.mp h
  obtain ⟨h₁, h₁'⟩ := hf out mid hmid
  obtain ⟨h₂, h₂'⟩ := hg mid out' h
  exact ⟨by omega, fun heq ↦ ⟨h₁' (by omega), h₂' (by omega)⟩⟩

theorem Adds.mono (hf : Adds f a P) (hab : a ≤ b) (hPQ : P → Q) : Adds f b Q := by
  intro out out' h
  obtain ⟨h₁, h₁'⟩ := hf out out' h
  exact ⟨by omega, fun heq ↦ hPQ (h₁' (by omega))⟩

theorem adds_nil : Adds (fun out ↦ some out) 0 True := by
  rintro out _ ⟨⟩
  exact ⟨le_rfl, fun _ ↦ trivial⟩

theorem flush_total {out out' : Output Bytes} (h : out.flush objectWriteToStream = some out') :
    out'.total = out.total := by
  rw [flush, objectWriteToStream, map_some, some_inj] at h
  rw [← h, total, total, length_append]
  rfl

theorem adds_char (c : UInt8) : Adds (objectWriteBencodeCChar objectWriteToStream c) 1 True := by
  intro out out' h
  refine ⟨?_, fun _ ↦ trivial⟩
  have hadd (out : Output Bytes) : total { out with filled := out.filled ++ [c] } = out.total + 1 := by
    simp [total, add_assoc]
  rw [objectWriteBencodeCChar] at h
  split_ifs at h with hfull
  · obtain ⟨mid, hmid, h⟩ := bind_eq_some_iff.mp h
    rw [← flush_total hmid]
    split_ifs at h
    · cases h
      exact le_succ _
    · cases h
      exact (hadd mid).le
  · cases h
    exact (hadd out).le

theorem copyLoop_total (n : ℕ) (src : Bytes) (out out' : Output Bytes)
    (h : copyLoop objectWriteToStream n out src = some out') : out'.total ≤ out.total + src.length := by
  induction n generalizing src out with
  | zero =>
    cases src <;> cases h
    exact le_add_right _ _
  | succ n ih =>
    cases src with
    | nil =>
      cases h
      exact le_add_right _ _
    | cons c src =>
      rw [copyLoop] at h
      generalize hlen : min (src.length + 1) ((out.size - out.filled.length) % 2 ^ 32) = len at h
      have hadd : total { out with filled := out.filled ++ (c :: src).take len } +
          ((c :: src).drop len).length = out.total + (c :: src).length := by
        simp only [total, length_append, length_take, length_drop, length_cons]
        omega
      rw [← hadd]
      split_ifs at h with hfull
      · obtain ⟨mid, hmid, h⟩ := bind_eq_some_iff.mp h
        rw [← flush_total hmid]
        split_ifs at h
        · cases h
          exact le_add_right _ _
        · exact ih _ _ h
      · exact ih _ _ h

theorem adds_string (s : Bytes) :
    Adds (objectWriteBencodeCString objectWriteToStream s) s.length (s.length < 2 ^ 32) := by
  intro out out' h
  have hle := copyLoop_total _ _ _ _ h
  rw [length_take] at hle
  exact ⟨by omega, fun heq ↦ by omega⟩

theorem adds_script (ps : List Prim) : Adds (runScript objectWriteToStream ps) (scriptText ps).length True := by
  induction ps with
  | nil => exact adds_nil
  | cons p ps ih =>
    have hp : Adds (p.write objectWriteToStream) p.bytes.length True := by
      cases p with
      | char c => exact adds_char c
      | str s => exact (adds_string s).mono le_rfl fun _ ↦ trivial
    refine (hp.bind ih).mono ?_ fun _ ↦ trivial
    simp [scriptText]

theorem adds_value (v : Int64) :
    Adds (objectWriteBencodeCValue objectWriteToStream v) (integerText v.toInt).length True := by
  have hv : Scripted objectWriteToStream _ _ _ := scripted_value v
  intro out out' h
  rw [hv.run] at h
  rw [← hv.text]
  exact adds_script _ out out' h

theorem length_decimal_mono {m : ℕ} (h : m ≤ n) : (decimal m).length ≤ (decimal n).length := by
  obtain rfl | hm := Nat.eq_zero_or_pos m
  · exact length_pos_iff.mpr (decimal_ne_nil n)
  have := Nat.le_length_digits_le 10 m n h
  rw [decimal, decimal, if_neg (by omega), if_neg (by omega)]
  simpa using this

theorem adds_objString (s : Bytes) :
    Adds (objectWriteBencodeCObjString objectWriteToStream s) (stringText s).length (s.length < 2 ^ 32) := by
  have ht : integerText (Int64.ofNat (s.length % 2 ^ 32)).toInt = decimal (s.length % 2 ^ 32) := by
    rw [Int64.toInt_ofNat_of_lt (by omega), integerText, if_neg (by omega), Int.natAbs_natCast]
  have hv := adds_value (Int64.ofNat (s.length % 2 ^ 32))
  rw [ht] at hv
  have hv' := hv.mono (length_decimal_mono (mod_le s.length (2 ^ 32))) id
  refine (hv'.bind ((adds_char (ch ':')).bind (adds_string s))).mono ?_ fun h ↦ h.2.2
  rw [stringText, length_append, length_cons]
  omega

theorem adds_raw (c : UInt8) (r : Bytes) :
    Adds (objectWriteRaw objectWriteToStream c r) (c :: (r ++ [ch 'e'])).length (r.length < 2 ^ 32) := by
  refine ((adds_char c).bind ((adds_string r).bind (adds_char (ch 'e')))).mono ?_ fun h ↦ h.2.1
  simp only [length_cons, length_append, length_nil]
  omega

theorem Adds.delimited {c : UInt8} {text : Bytes} (hf : Adds f text.length P) :
    Adds (fun out ↦ (objectWriteBencodeCChar objectWriteToStream c out).bind fun out ↦
      (f out).bind (objectWriteBencodeCChar objectWriteToStream (ch 'e'))) (c :: (text ++ [ch 'e'])).length P := by
  refine ((adds_char c).bind (hf.bind (adds_char (ch 'e')))).mono ?_ fun h ↦ h.2.1
  simp only [length_cons, length_append, length_nil]
  omega

mutual

theorem adds_object (skipMask : UInt32) : (o : Object) →
    Adds (objectWriteBencodeCObject objectWriteToStream skipMask o) (o.encode skipMask).length
      (o.Encodable skipMask)
  | .none _ => adds_nil
  | .rawBencode _ r => adds_string r
  | .rawString _ r => adds_objString r
  | .rawList _ r => adds_raw (ch 'l') r
  | .rawMap _ r => adds_raw (ch 'd') r
  | .value _ v => by
    refine ((adds_char (ch 'i')).bind ((adds_value v).bind (adds_char (ch 'e')))).mono ?_ fun _ ↦ trivial
    simp only [Object.encode, length_cons, length_append, length_nil]
    omega
  | .string _ s => adds_objString s
  | .list _ l => (adds_list skipMask l).delimited
  | .map _ m => (adds_map skipMask m).delimited
  | .dictKey _ _ _ => fun _ _ h ↦ by cases h

theorem adds_list (skipMask : UInt32) : (l : List Object) →
    Adds (objectWriteList objectWriteToStream skipMask l) (Object.encodeList skipMask l).length
      (Object.EncodableList skipMask l)
  | [] => adds_nil
  | o :: l => by
    intro out out' h
    rw [objectWriteList] at h
    rw [Object.encodeList, Object.EncodableList]
    split_ifs at h ⊢ with hskip
    · obtain ⟨hle, heq⟩ := adds_list skipMask l out out' h
      exact ⟨hle, fun h ↦ ⟨hskip.imp id .inl, heq h⟩⟩
    have hbind := (adds_object skipMask o).bind (adds_list skipMask l)
    rw [length_append]
    obtain ⟨hle, heq⟩ := hbind out out' h
    exact ⟨hle, fun h ↦ ⟨.inr (.inr (heq h).1), (heq h).2⟩⟩

theorem adds_map (skipMask : UInt32) : (m : List (Bytes × Object)) →
    Adds (objectWriteMap objectWriteToStream skipMask m) (Object.encodeMap skipMask m).length
      (Object.EncodableMap skipMask m)
  | [] => adds_nil
  | (k, o) :: m => by
    intro out out' h
    rw [objectWriteMap] at h
    rw [Object.encodeMap, Object.EncodableMap]
    split_ifs at h ⊢ with hskip
    · obtain ⟨hle, heq⟩ := adds_map skipMask m out out' h
      exact ⟨hle, fun h ↦ ⟨hskip.imp id .inl, heq h⟩⟩
    have hbind := (adds_objString k).bind ((adds_object skipMask o).bind (adds_map skipMask m))
    rw [length_append, length_append]
    obtain ⟨hle, heq⟩ := hbind out out' h
    exact ⟨hle, fun h ↦ ⟨.inr (.inr ⟨(heq h).1, (heq h).2.1⟩), (heq h).2.2⟩⟩

end

end Adds

theorem encodable_of_stream {o : Object}
    (h : (objectWriteBencodeC objectWriteToStream [] size o 0).map Prod.fst = some (o.encode 0)) :
    o.Encodable 0 := by
  obtain ⟨⟨text, k⟩, hw, htext⟩ := map_eq_some_iff.mp h
  rw [objectWriteBencodeC, if_pos (by simp)] at hw
  obtain ⟨out, hout, hw⟩ := bind_eq_some_iff.mp hw
  obtain ⟨-, hfull⟩ := adds_object 0 o _ out hout
  apply hfull
  have hlen : out.total = text.length := by
    rw [total]
    dsimp only at hw
    split_ifs at hw with hnil
    · cases hw
      rw [hnil]
      rfl
    · cases hw
      rw [length_append]
  rw [hlen, ← htext, total]
  exact (zero_add _).symm

/-- A string of `len` bytes goes through a buffer of more than `2 ^ 32` bytes that is filled up
to `p`, though the room is counted in 32 bits. -/
def StringPasses (size p len : ℕ) : Prop :=
  if size - p < 2 ^ 32 then len ≤ size - p ∨ len - (size - p) ≤ size % 2 ^ 32 else len ≤ (size - p) % 2 ^ 32

/-- Every string of the script goes through, `n` bytes having been written before. -/
def ScriptPasses (size : ℕ) : List Prim → ℕ → Prop
  | [], _ => True
  | .char _ :: ps, n => ScriptPasses size ps (n + 1)
  | .str s :: ps, n => (s = [] ∨ StringPasses size (n % size) s.length) ∧ ScriptPasses size ps (n + s.length)

/-- The buffer after `n` bytes. One that is full may or may not have been handed over. -/
structure Output.Holds {σ : Type} (out : Output σ) (size n : ℕ) : Prop where
  size_eq : out.size = size
  le : out.filled.length ≤ size
  mod : out.filled.length % size = n % size

/-- The call goes through exactly under a condition, and leaves `s` behind what was there and `n` bytes in all. -/
def Output.GoesThrough {σ : Type} (absorb : σ → Bytes → σ) (out : Output σ) (size : ℕ) (P : Prop)
    (r : Option (Output σ)) (n : ℕ) (s : Bytes) : Prop :=
  (P → ∃ out', r = some out' ∧ out'.Holds size n ∧
    absorb out'.data out'.filled = absorb (absorb out.data out.filled) s) ∧ (¬ P → r = none)

section Large

variable {σ : Type} {writeFunc : WriteFunc σ} {absorb : σ → Bytes → σ} {size : ℕ} {out : Output σ}

variable (h : Absorbs writeFunc absorb)
include h

theorem copyLoop_full {src : Bytes} (hsrc : src ≠ [])
    (hpos : 0 < out.size) (hfull : out.filled.length = out.size) :
    copyLoop writeFunc (n + 1) out src = copyLoop writeFunc n ⟨absorb out.data out.filled, out.size, []⟩ src := by
  obtain ⟨c, src, rfl⟩ := exists_cons_of_ne_nil hsrc
  rw [copyLoop]
  simp only [hfull, Nat.sub_self, Nat.zero_mod, Nat.min_zero, take_zero, append_nil, drop_zero,
    if_true, flush_full h hfull, bind_eq_bind, bind_some]
  rw [if_neg hpos.ne']

theorem copyLoop_fills {room : ℕ} {src : Bytes} (hroom : out.size = out.filled.length + room) (hpos : 0 < room)
    (hle : room ≤ src.length) (hs : src.length < 2 ^ 32) :
    copyLoop writeFunc (n + 1) out src =
      copyLoop writeFunc n ⟨absorb out.data (out.filled ++ src.take room), out.size, []⟩ (src.drop room) := by
  obtain ⟨c, src, rfl⟩ := exists_cons_of_ne_nil (length_pos_iff.mp (hpos.trans_le hle))
  rw [length_cons] at hle hs
  have hcount : min (src.length + 1) ((out.size - out.filled.length) % 2 ^ 32) = room := by omega
  have hfull : (out.filled ++ (c :: src).take room).length = out.size := by
    rw [length_append, length_take, length_cons]
    omega
  rw [copyLoop]
  simp only [hcount]
  rw [if_pos hfull, flush_full h hfull, bind_eq_bind, bind_some, if_neg]
  dsimp only
  omega

theorem copyLoop_large (out : Output σ) (n : ℕ) {src : Bytes}
    (hsize : 2 ^ 32 ≤ out.size) (hlt : out.filled.length < out.size) (hsrc : src ≠ []) (hs : src.length < 2 ^ 32) :
    out.GoesThrough absorb out.size (StringPasses out.size out.filled.length src.length)
      (copyLoop writeFunc (n + 2) out src) (out.filled.length + src.length) src := by
  obtain ⟨room, hroom⟩ := Nat.exists_eq_add_of_le hlt.le
  have hsub : out.size - out.filled.length = room := by omega
  rw [StringPasses, hsub]
  obtain hfit | hfill := lt_or_ge src.length room
  · -- the string ends before the buffer does
    have hiff : (if room < 2 ^ 32 then src.length ≤ room ∨ src.length - room ≤ out.size % 2 ^ 32
        else src.length ≤ room % 2 ^ 32) ↔ src.length ≤ room % 2 ^ 32 := by
      split_ifs <;> omega
    rw [hiff, ← hsub]
    refine ⟨fun hle ↦ ?_, fun hno ↦ copyLoop_wraps (by omega) hsrc hno⟩
    refine ⟨_, copyLoop_fits (by omega) (by omega) (.inr hle), ⟨rfl, ?_, ?_⟩, h.append _ _ _⟩
    · rw [length_append]
      omega
    · rw [length_append]
  · rw [if_pos (by omega), copyLoop_fills h hroom (by omega) hfill hs]
    have hrest : (src.drop room).length = src.length - room := length_drop
    have hsplit : absorb (absorb out.data (out.filled ++ src.take room)) (src.drop room) =
        absorb (absorb out.data out.filled) src := by
      rw [h.append, ← h.append (absorb out.data out.filled), take_append_drop]
    have hmod : out.filled.length + src.length = src.length - room + out.size := by omega
    have hempty : out.size - ([] : Bytes).length = out.size := rfl
    refine ⟨fun hle ↦ ?_, fun hno ↦ ?_⟩
    · refine ⟨_, copyLoop_fits (by omega) ?_ ?_, ⟨rfl, ?_, ?_⟩, hsplit⟩
      · dsimp only [length_nil]
        omega
      · rw [hempty, hrest, ← length_eq_zero_iff, hrest]
        omega
      · rw [nil_append, hrest]
        omega
      · rw [nil_append, hrest, hmod, add_mod_right]
    · refine copyLoop_wraps ?_ ?_ ?_
      · dsimp only [length_nil]
        omega
      · rw [ne_eq, ← length_eq_zero_iff, hrest]
        omega
      · rw [hempty, hrest]
        omega

theorem objectWriteBencodeCString_large (hsize : 2 ^ 32 ≤ size)
    (hout : out.Holds size n) {s : Bytes} (hs : s.length < 2 ^ 32) :
    out.GoesThrough absorb size (s = [] ∨ StringPasses size (n % size) s.length)
      (objectWriteBencodeCString writeFunc s out) (n + s.length) s := by
  obtain ⟨rfl, hle, hmod⟩ := hout
  rw [objectWriteBencodeCString, mod_eq_of_lt hs, take_length]
  by_cases hnil : s = []
  · subst hnil
    exact ⟨fun _ ↦ ⟨out, rfl, ⟨rfl, hle, hmod⟩, (h.nil _).symm⟩, fun hno ↦ absurd (.inl rfl) hno⟩
  simp only [hnil, false_or]
  have hpos := length_pos_iff.mpr hnil
  obtain ⟨m, hm⟩ : ∃ m, 2 * s.length + 1 = m + 3 := ⟨2 * s.length - 2, by omega⟩
  have hnext {k : ℕ} (hk : k % out.size = n % out.size) :
      (k + s.length) % out.size = (n + s.length) % out.size := Nat.ModEq.add_right _ hk
  rw [hm, ← hmod]
  obtain hlt | hfull := lt_or_eq_of_le hle
  · rw [mod_eq_of_lt hlt]
    obtain ⟨hyes, hno⟩ := copyLoop_large h out (m + 1) hsize hlt hnil hs
    refine ⟨fun hp ↦ ?_, hno⟩
    obtain ⟨out', h₁, h₂, h₃⟩ := hyes hp
    exact ⟨out', h₁, ⟨h₂.size_eq, h₂.le, h₂.mod.trans (hnext hmod)⟩, h₃⟩
  -- a full buffer is handed over first
  rw [hfull, mod_self] at hmod ⊢
  rw [copyLoop_full h hnil (by omega) hfull]
  obtain ⟨hyes, hno⟩ := copyLoop_large h ⟨absorb out.data out.filled, out.size, []⟩ m hsize
    (by dsimp only [length_nil]; omega) hnil hs
  refine ⟨fun hp ↦ ?_, hno⟩
  obtain ⟨out', h₁, h₂, h₃⟩ := hyes hp
  refine ⟨out', h₁, ⟨h₂.size_eq, h₂.le, h₂.mod.trans (hnext ?_)⟩, h₃.trans (by rw [h.nil])⟩
  rw [← hmod]
  exact zero_mod _

theorem objectWriteBencodeCChar_large (hsize : 0 < size) (hout : out.Holds size n) (c : UInt8) :
    ∃ out', objectWriteBencodeCChar writeFunc c out = some out' ∧ out'.Holds size (n + 1) ∧
      absorb out'.data out'.filled = absorb (absorb out.data out.filled) [c] := by
  obtain ⟨rfl, hle, hmod⟩ := hout
  rw [objectWriteBencodeCChar]
  split_ifs with hfull
  · refine ⟨⟨absorb out.data out.filled, out.size, [c]⟩, ?_, ⟨rfl, hsize, ?_⟩, rfl⟩
    · simp [flush_full h hfull, hsize.ne']
    rw [hfull, mod_self] at hmod
    have h0 : 0 ≡ n [MOD out.size] := (zero_mod _).trans hmod
    exact (congrArg (· % out.size) (zero_add 1)).symm.trans (h0.add_right 1)
  refine ⟨_, rfl, ⟨rfl, ?_, ?_⟩, h.append _ _ _⟩
  · rw [length_append, length_singleton]
    omega
  · rw [length_append, length_singleton]
    exact Nat.ModEq.add_right 1 hmod

theorem runScript_large (hsize : 2 ^ 32 ≤ size) {ps : List Prim}
    (hps : ∀ p ∈ ps, p.Short) (out : Output σ) (hout : out.Holds size n) :
    out.GoesThrough absorb size (ScriptPasses size ps n) (runScript writeFunc ps out)
      (n + (scriptText ps).length) (scriptText ps) := by
  induction ps generalizing n out with
  | nil => exact ⟨fun _ ↦ ⟨out, rfl, hout, (h.nil _).symm⟩, fun hno ↦ absurd trivial hno⟩
  | cons p ps ih =>
    have hps' : ∀ q ∈ ps, q.Short := fun q hq ↦ hps q (mem_cons_of_mem p hq)
    have hnext {out₁ : Output σ} (hrun : p.write writeFunc out = some out₁)
        (h₁ : out₁.Holds size (n + p.bytes.length))
        (htext : absorb out₁.data out₁.filled = absorb (absorb out.data out.filled) p.bytes) :
        out.GoesThrough absorb size (ScriptPasses size ps (n + p.bytes.length)) (runScript writeFunc (p :: ps) out)
          (n + (scriptText (p :: ps)).length) (scriptText (p :: ps)) := by
      have hih := ih hps' out₁ h₁
      rw [Output.GoesThrough, htext, add_assoc, ← length_append, ← h.append] at hih
      rw [runScript, hrun, bind_some]
      exact hih
    cases p with
    | char c =>
      obtain ⟨out₁, hrun, h₁, htext⟩ := objectWriteBencodeCChar_large h (by omega) hout c
      exact hnext hrun h₁ htext
    | str s =>
      have hs : s.length < 2 ^ 32 := hps _ mem_cons_self
      obtain ⟨hyes, hno⟩ := objectWriteBencodeCString_large h hsize hout hs
      rw [ScriptPasses]
      by_cases hp : s = [] ∨ StringPasses size (n % size) s.length
      · obtain ⟨out₁, hrun, h₁, htext⟩ := hyes hp
        simp only [hp, true_and]
        exact hnext hrun h₁ htext
      refine ⟨fun hp' ↦ absurd hp'.1 hp, fun _ ↦ ?_⟩
      have hrun : (Prim.str s).write writeFunc out = none := hno hp
      rw [runScript, hrun, bind_none]

end Large

theorem objectWriteBencodeC_stream_iff (hsize : 0 < size) (o : Object) :
    (objectWriteBencodeC objectWriteToStream [] size o 0).map Prod.fst = some (o.encode 0) ↔
      o.Encodable 0 ∧ (size < 2 ^ 32 ∨ ScriptPasses size (o.script 0) 0) := by
  have hmask : o.flags &&& 0 = 0 := by simp
  constructor
  · intro h
    have ho := encodable_of_stream h
    refine ⟨ho, lt_or_ge size (2 ^ 32) |>.imp_right fun hlarge ↦ ?_⟩
    by_contra hno
    have hs : Scripted objectWriteToStream _ _ _ := scripted_object 0 o ho
    have hnone := (runScript_large absorbs_stream hlarge hs.short ⟨[], size, []⟩
      ⟨rfl, zero_le _, rfl⟩).2 hno
    rw [objectWriteBencodeC, if_pos hmask, hs.run, hnone] at h
    cases h
  · rintro ⟨ho, hlt | hpass⟩
    · exact objectWriteBencodeC_absorb absorbs_stream [] hsize hlt hmask ho
    obtain hlt | hlarge := lt_or_ge size (2 ^ 32)
    · exact objectWriteBencodeC_absorb absorbs_stream [] hsize hlt hmask ho
    have hs : Scripted objectWriteToStream _ _ _ := scripted_object 0 o ho
    obtain ⟨out, h₁, -, h₂⟩ := (runScript_large absorbs_stream hlarge hs.short ⟨[], size, []⟩
      ⟨rfl, zero_le _, rfl⟩).1 hpass
    rw [objectWriteBencodeC, if_pos hmask, hs.run, h₁]
    rw [hs.text] at h₂
    simp only [bind_eq_bind, bind_some, nil_append] at h₂ ⊢
    split_ifs with hnil
    · rw [hnil, append_nil] at h₂
      simp [h₂]
    · simp [objectWriteToStream, h₂]

open Prim

/-- The call leaves room in a buffer of `n` bytes, `a` of which are filled, or fills it by a
single character, which does not hand it over. -/
def Prim.Leaves (n a : ℕ) : Prim → Prop
  | .char _ => a < n
  | .str s => s = [] ∨ a + s.length < n ∧ s.length ≤ (n - a) % 2 ^ 32

/-- The last call that writes anything does not fit into a buffer of `n` bytes, `a` of which
are filled, and the calls before it leave the buffer open. -/
def CutShort (n : ℕ) : List Prim → ℕ → Prop
  | [], _ => False
  | p :: ps, a =>
    (n < a + p.bytes.length ∧ ∀ q ∈ ps, q.bytes = []) ∨ p.Leaves n a ∧ CutShort n ps (a + p.bytes.length)

def Output.closed (d : Bytes) : Output Bytes := ⟨d, 0, []⟩

variable {n : ℕ} {filled : Bytes} {p : Prim}

theorem Prim.Leaves.le (h : p.Leaves n filled.length) (hle : filled.length ≤ n) :
    filled.length + p.bytes.length ≤ n := by
  cases p with
  | char c => exact h
  | str s =>
    obtain rfl | h := h
    · exact hle
    · exact h.1.le

theorem write_closed (hp : p.Short) (d : Bytes) (h : p.bytes ≠ []) :
    p.write objectWriteToBuffer (.closed d) = none := by
  cases p with
  | char c => rfl
  | str s =>
    obtain ⟨c, s, rfl⟩ := exists_cons_of_ne_nil h
    rw [write, objectWriteBencodeCString, mod_eq_of_lt hp, take_length]
    rfl

theorem write_nil {out : Output Bytes} (h : p.bytes = []) : p.write objectWriteToBuffer out = some out := by
  cases p with
  | char c => cases h
  | str s =>
    cases h
    rfl

theorem runScript_closed {ps : List Prim} (hps : ∀ p ∈ ps, p.Short) (d : Bytes) :
    (∀ q ∈ ps, q.bytes = []) ∧ runScript objectWriteToBuffer ps (.closed d) = some (.closed d) ∨
      ¬ (∀ q ∈ ps, q.bytes = []) ∧ runScript objectWriteToBuffer ps (.closed d) = none := by
  induction ps with
  | nil => exact .inl ⟨nofun, rfl⟩
  | cons p ps ih =>
    rw [runScript, forall_mem_cons]
    by_cases hp : p.bytes = []
    · rw [write_nil hp, bind_some]
      simpa only [hp, true_and] using ih fun q hq ↦ hps q (mem_cons_of_mem p hq)
    · rw [write_closed (hps p mem_cons_self) d hp]
      exact .inr ⟨fun h ↦ hp h.1, rfl⟩

theorem write_leaves (hp : p.Short) (h : p.Leaves n filled.length) :
    p.write objectWriteToBuffer ⟨[], n, filled⟩ = some ⟨[], n, filled ++ p.bytes⟩ := by
  cases p with
  | char c =>
    rw [write, objectWriteBencodeCChar, if_neg]
    · rfl
    · exact Nat.ne_of_lt h
  | str s =>
    rw [write, objectWriteBencodeCString, mod_eq_of_lt hp, take_length]
    obtain rfl | ⟨hlt, hfit⟩ := h
    · simp [copyLoop, bytes]
    · exact copyLoop_fits (by omega) hlt (.inr hfit)

theorem flush_buffer (h : filled.length = n) (hn : 0 < n) :
    Output.flush objectWriteToBuffer ⟨[], n, filled⟩ = some (.closed filled) := by
  have hne : filled ≠ [] := length_pos_iff.mp (h ▸ hn)
  rw [Output.flush, objectWriteToBuffer, if_neg hne]
  rfl

theorem write_fills {s : Bytes} (hs : s.length < 2 ^ 32) (hne : s ≠ []) (hn : 0 < n) (hle : filled.length ≤ n)
    (h : n ≤ filled.length + s.length) :
    (str s).write objectWriteToBuffer ⟨[], n, filled⟩ =
      some (.closed (filled ++ s.take (n - filled.length))) := by
  obtain ⟨c, s, rfl⟩ := exists_cons_of_ne_nil hne
  rw [write, objectWriteBencodeCString, mod_eq_of_lt hs, take_length, copyLoop]
  have hroom : (n - filled.length) % 2 ^ 32 = n - filled.length := mod_eq_of_lt (by omega)
  have hmin : min (s.length + 1) (n - filled.length) = n - filled.length := by
    rw [length_cons] at h
    omega
  simp only [hroom, hmin]
  have hfull : (filled ++ (c :: s).take (n - filled.length)).length = n := by
    rw [length_append, length_take]
    omega
  rw [if_pos hfull, flush_buffer hfull hn]
  rfl

theorem write_overflow (hp : p.Short) (hn : 0 < n) (hle : filled.length ≤ n)
    (h : n < filled.length + p.bytes.length) :
    ∃ d, p.write objectWriteToBuffer ⟨[], n, filled⟩ = some (.closed d) ∧ d.length = n := by
  cases p with
  | char c =>
    have hfull : filled.length = n := Nat.le_antisymm hle (Nat.lt_succ_iff.mp h)
    refine ⟨filled, ?_, hfull⟩
    rw [write, objectWriteBencodeCChar, if_pos hfull, flush_buffer hfull hn]
    rfl
  | str s =>
    rw [bytes] at h
    have hne : s ≠ [] := by
      rintro rfl
      exact absurd h (not_lt.mpr hle)
    refine ⟨_, write_fills hp hne hn hle h.le, ?_⟩
    rw [length_append, length_take]
    omega

/-- What a fixed buffer holds in the end: the whole text, or exactly as much of it as there was
room for. -/
theorem runScript_cutShort {ps : List Prim} (hps : ∀ p ∈ ps, p.Short) (hn : 0 < n) (filled : Bytes)
    (hle : filled.length ≤ n) :
    (CutShort n ps filled.length →
      ∃ d, runScript objectWriteToBuffer ps ⟨[], n, filled⟩ = some (.closed d) ∧ d.length = n ∧
        n < filled.length + (scriptText ps).length) ∧
    (¬ CutShort n ps filled.length →
      ∀ out, runScript objectWriteToBuffer ps ⟨[], n, filled⟩ = some out →
        out.data ++ out.filled = filled ++ scriptText ps) := by
  induction ps generalizing filled with
  | nil =>
    refine ⟨False.elim, fun _ out h ↦ ?_⟩
    cases h
    exact (append_nil filled).symm
  | cons p ps ih =>
    have hp : p.Short := hps p mem_cons_self
    have hps' : ∀ q ∈ ps, q.Short := fun q hq ↦ hps q (mem_cons_of_mem p hq)
    have htext : scriptText (p :: ps) = p.bytes ++ scriptText ps := by simp [scriptText]
    have hrest (h : ∀ q ∈ ps, q.bytes = []) : scriptText ps = [] := flatMap_eq_nil_iff.mpr h
    rw [CutShort, runScript, htext, length_append]
    by_cases hover : n < filled.length + p.bytes.length
    · -- the call is cut, and whatever is still to be written raises an error
      have hnot : ¬ p.Leaves n filled.length := fun h ↦ absurd (h.le hle) (not_le.mpr hover)
      obtain ⟨d, hw, hd⟩ := write_overflow hp hn hle hover
      rw [hw, bind_some]
      obtain ⟨hnil, hrun⟩ | ⟨hnil, hrun⟩ := runScript_closed hps' d
      · exact ⟨fun _ ↦ ⟨d, hrun, hd, by omega⟩, fun h ↦ absurd (.inl ⟨hover, hnil⟩) h⟩
      refine ⟨fun h ↦ ?_, fun _ out h ↦ ?_⟩
      · exact h.elim (fun h ↦ absurd h.2 hnil) fun h ↦ absurd h.1 hnot
      · rw [hrun] at h
        cases h
    by_cases hleaves : p.Leaves n filled.length
    · have hlen : (filled ++ p.bytes).length = filled.length + p.bytes.length := length_append
      obtain ⟨hcut, hwhole⟩ := ih hps' _ (hlen.trans_le (hleaves.le hle))
      rw [hlen] at hcut hwhole
      rw [write_leaves hp hleaves, bind_some, ← append_assoc, ← add_assoc]
      refine ⟨fun h ↦ hcut (h.resolve_left fun h ↦ hover h.1).2, fun h ↦ hwhole fun hc ↦ h (.inr ⟨hleaves, hc⟩)⟩
    have hnot : ¬ ((n < filled.length + p.bytes.length ∧ ∀ q ∈ ps, q.bytes = []) ∨
        p.Leaves n filled.length ∧ CutShort n ps (filled.length + p.bytes.length)) :=
      fun h ↦ h.elim (fun h ↦ hover h.1) fun h ↦ hleaves h.1
    refine ⟨fun h ↦ absurd h hnot, fun _ out h ↦ ?_⟩
    cases p with
    | char c => exact absurd (lt_of_succ_le (not_lt.mp hover)) hleaves
    | str s =>
      obtain ⟨hne, hfit⟩ := not_or.mp hleaves
      rw [bytes] at hover ⊢
      by_cases hend : filled.length + s.length = n
      · rw [write_fills hp hne hn hle hend.ge, bind_some,
          take_of_length_le (by omega : s.length ≤ n - filled.length)] at h
        obtain ⟨hnil, hrun⟩ | ⟨-, hrun⟩ := runScript_closed hps' (filled ++ s)
        · rw [hrun, some_inj] at h
          rw [hrest hnil, ← h]
          simp [Output.closed]
        · rw [hrun] at h
          cases h
      · -- the room is counted in 32 bits, and the loop makes no progress
        have hlt : filled.length + s.length < n := by omega
        have hno : ¬ s.length ≤ (n - filled.length) % 2 ^ 32 := fun hle ↦ hfit ⟨hlt, hle⟩
        rw [write, objectWriteBencodeCString, mod_eq_of_lt hp, take_length, copyLoop_wraps hlt hne hno] at h
        cases h

/-- A fixed buffer is returned with a text that is not complete exactly when the last call is
the one that is cut. -/
theorem objectWriteBencodeC_buffer_iff (n : ℕ) {o : Object} (ho : o.Encodable 0) :
    (∀ b k, objectWriteBencodeC objectWriteToBuffer [] n o 0 = some (b, k) → b = o.encode 0) ↔
      ¬ (0 < n ∧ CutShort n (o.script 0) 0) := by
  have hs : Scripted objectWriteToBuffer _ _ _ := scripted_object 0 o ho
  have hrun : objectWriteBencodeC objectWriteToBuffer [] n o 0 =
      (runScript objectWriteToBuffer (o.script 0) ⟨[], n, []⟩).bind fun out ↦
        if out.filled = [] then some (out.data, out.size) else objectWriteToBuffer out.data out.filled := by
    rw [objectWriteBencodeC, if_pos (by simp), hs.run]
    rfl
  constructor
  · rintro h ⟨hn, hcut⟩
    obtain ⟨d, hw, hd, hlt⟩ := (runScript_cutShort hs.short hn [] (Nat.zero_le n)).1 hcut
    rw [hrun, hw] at h
    have heq : d = o.encode 0 := h d 0 rfl
    rw [hs.text, ← heq, hd] at hlt
    simp at hlt
  intro hno b k h
  obtain rfl | hn := Nat.eq_zero_or_pos n
  · obtain ⟨hnil, hw⟩ | ⟨-, hw⟩ := runScript_closed hs.short []
    · rw [hrun, show (⟨[], 0, []⟩ : Output Bytes) = .closed [] from rfl, hw] at h
      cases h
      rw [← hs.text]
      exact (flatMap_eq_nil_iff.mpr hnil).symm
    · rw [hrun, show (⟨[], 0, []⟩ : Output Bytes) = .closed [] from rfl, hw] at h
      cases h
  · rw [hrun] at h
    obtain ⟨out, hw, h⟩ := bind_eq_some_iff.mp h
    have hwhole := (runScript_cutShort hs.short hn [] (Nat.zero_le n)).2 (fun hc ↦ hno ⟨hn, hc⟩) out hw
    rw [hs.text, nil_append] at hwhole
    rw [← hwhole]
    split_ifs at h with hnil
    · cases h
      rw [hnil, append_nil]
    rw [objectWriteToBuffer, if_neg hnil] at h
    cases h
    rfl

end LibTorrent
