import LibTorrent.Object.Encode

namespace LibTorrent

open Lib.Decimal List Nat Option

/-- A sink that takes in the bytes it is handed and leaves the buffer as it was. -/
structure Absorbs {σ : Type} (writeFunc : WriteFunc σ) (absorb : σ → Bytes → σ) : Prop where
  call : ∀ d b, writeFunc d b = some (absorb d b, b.length)
  nil : ∀ d, absorb d [] = d
  append : ∀ d a b, absorb d (a ++ b) = absorb (absorb d a) b

theorem absorbs_stream : Absorbs objectWriteToStream (· ++ ·) where
  call _ _ := rfl
  nil := append_nil
  append d a b := (append_assoc d a b).symm

theorem absorbs_size : Absorbs objectWriteToSize (fun d b ↦ d + UInt64.ofNat b.length) where
  call _ _ := rfl
  nil d := by simp
  append d a b := by rw [length_append, UInt64.ofNat_add, UInt64.add_assoc]

/-- Buffers the copy loop can work with: one byte at least, and a size of 32 bits. -/
structure Output.Usable {σ : Type} (out : Output σ) : Prop where
  pos : 0 < out.size
  lt : out.size < 2 ^ 32
  le : out.filled.length ≤ out.size

/-- The operation adds the text `b` to what the sink and the buffer hold. -/
def Writes {σ : Type} (absorb : σ → Bytes → σ) (f : Output σ → Option (Output σ)) (b : Bytes) : Prop :=
  ∀ out : Output σ, out.Usable → ∃ out', f out = some out' ∧ out'.Usable ∧
    absorb out'.data out'.filled = absorb (absorb out.data out.filled) b

variable {src : Bytes} {ps : List Prim}

section

variable {σ : Type} {writeFunc : WriteFunc σ} {absorb : σ → Bytes → σ}

variable (h : Absorbs writeFunc absorb)
include h

theorem flush_full {out : Output σ} (hfull : out.filled.length = out.size) :
    out.flush writeFunc = some ⟨absorb out.data out.filled, out.size, []⟩ := by
  rw [Output.flush, h.call, hfull]
  rfl

theorem writes_char (c : UInt8) : Writes absorb (objectWriteBencodeCChar writeFunc c) [c] := by
  intro out hout
  rw [objectWriteBencodeCChar]
  split_ifs with hfull
  · have hne : out.size ≠ 0 := by have := hout.pos; omega
    refine ⟨⟨absorb out.data out.filled, out.size, [c]⟩, ?_, ⟨hout.pos, hout.lt, hout.pos⟩, rfl⟩
    simp [flush_full h hfull, hne]
  · have hlt := lt_of_le_of_ne hout.le hfull
    exact ⟨_, rfl, ⟨hout.pos, hout.lt, by simpa using hlt⟩, h.append _ _ _⟩

theorem copyLoop_writes (n : ℕ) (src : Bytes) (out : Output σ) (hout : out.Usable)
    (hn : 2 * src.length + (if out.filled.length = out.size then 1 else 0) ≤ n) :
    ∃ out', copyLoop writeFunc n out src = some out' ∧ out'.Usable ∧
      absorb out'.data out'.filled = absorb (absorb out.data out.filled) src := by
  induction n generalizing src out with
  | zero =>
    cases src with
    | nil => exact ⟨out, by simp [copyLoop], hout, (h.nil _).symm⟩
    | cons c src => simp at hn
  | succ n ih =>
    cases src with
    | nil => exact ⟨out, by simp [copyLoop], hout, (h.nil _).symm⟩
    | cons c src =>
      have hpos := hout.pos
      have hle := hout.le
      have hroom : (out.size - out.filled.length) % 2 ^ 32 = out.size - out.filled.length :=
        mod_eq_of_lt (by have := hout.lt; omega)
      rw [copyLoop]
      simp only [hroom]
      set len := min (src.length + 1) (out.size - out.filled.length) with hlen
      have htake : ((c :: src).take len).length = len := by
        rw [length_take, length_cons]
        omega
      have hsplit : absorb (absorb out.data (out.filled ++ (c :: src).take len)) ((c :: src).drop len) =
          absorb (absorb out.data out.filled) (c :: src) := by
        rw [h.append, ← h.append (absorb out.data out.filled), take_append_drop]
      have hrest : ((c :: src).drop len).length = src.length + 1 - len := by
        rw [length_drop, length_cons]
      split_ifs with hfull
      · rw [flush_full h (by simpa [htake] using hfull), Option.bind_eq_bind, bind_some,
          if_neg (by simpa using hpos.ne')]
        obtain ⟨out', h₁, h₂, h₃⟩ := ih ((c :: src).drop len)
          ⟨absorb out.data (out.filled ++ (c :: src).take len), out.size, []⟩
          ⟨hpos, hout.lt, zero_le _⟩ (by
            rw [hrest, if_neg (by simpa using hpos.ne)]
            rw [length_cons] at hn
            split_ifs at hn with hf <;> omega)
        exact ⟨out', h₁, h₂, by rw [h₃, h.nil, hsplit]⟩
      · obtain ⟨out', h₁, h₂, h₃⟩ := ih ((c :: src).drop len)
          { out with filled := out.filled ++ (c :: src).take len }
          ⟨hpos, hout.lt, by simp only [length_append, htake]; omega⟩ (by
            rw [hrest, if_neg (by simpa only [length_append, htake] using hfull)]
            rw [length_cons] at hn
            split_ifs at hn with hf <;> omega)
        exact ⟨out', h₁, h₂, by rw [h₃, hsplit]⟩

theorem writes_string (hs : src.length < 2 ^ 32) :
    Writes absorb (objectWriteBencodeCString writeFunc src) src := by
  intro out hout
  rw [objectWriteBencodeCString, mod_eq_of_lt hs, take_length]
  exact copyLoop_writes h _ src out hout (by split_ifs <;> omega)

theorem runScript_writes (hps : ∀ p ∈ ps, p.Short) : Writes absorb (runScript writeFunc ps) (scriptText ps) := by
  induction ps with
  | nil => exact fun out hout ↦ ⟨out, rfl, hout, (h.nil _).symm⟩
  | cons p ps ih =>
    intro out hout
    have hp : Writes absorb (p.write writeFunc) p.bytes := by
      cases p with
      | char c => exact writes_char h c
      | str s => exact writes_string h (hps _ mem_cons_self)
    obtain ⟨out₁, h₁, hu₁, ht₁⟩ := hp out hout
    obtain ⟨out₂, h₂, hu₂, ht₂⟩ := ih (fun q hq ↦ hps q (mem_cons_of_mem p hq)) out₁ hu₁
    refine ⟨out₂, ?_, hu₂, ?_⟩
    · simp only [runScript, h₁, bind_some, h₂]
    · rw [ht₂, ht₁, ← h.append]
      rfl

theorem objectWriteBencodeC_absorb (data : σ) {size : ℕ}
    (hpos : 0 < size) (hlt : size < 2 ^ 32) {o : Object} {skipMask : UInt32}
    (hmask : o.flags &&& skipMask = 0) (ho : o.Encodable skipMask) :
    (objectWriteBencodeC writeFunc data size o skipMask).map Prod.fst =
      some (absorb data (o.encode skipMask)) := by
  have hs : Scripted writeFunc _ _ _ := scripted_object skipMask o ho
  obtain ⟨out, h₁, h₂, h₃⟩ := runScript_writes h hs.short ⟨data, size, []⟩ ⟨hpos, hlt, zero_le _⟩
  rw [h.nil, hs.text] at h₃
  rw [← hs.run] at h₁
  rw [objectWriteBencodeC, if_pos hmask, h₁]
  simp only [Option.bind_eq_bind, bind_some]
  split_ifs with hnil
  · rw [hnil, h.nil] at h₃
    simp [h₃]
  · simp [h.call, h₃]

end

/-- A buffer with exactly `after` bytes more than the script needs is never counted as too
small for a string of it, though its room is counted modulo `2 ^ 32`. -/
def RoomFits : List Prim → ℕ → Prop
  | [], _ => True
  | .char _ :: ps, after => RoomFits ps after
  | .str s :: ps, after =>
    (s = [] ∨ s.length ≤ (s.length + (scriptText ps).length + after) % 2 ^ 32) ∧ RoomFits ps after

section Buffer

variable {σ : Type} {writeFunc : WriteFunc σ}

theorem copyLoop_stuck (n : ℕ) (hsrc : src ≠ []) {out : Output σ}
    (hroom : (out.size - out.filled.length) % 2 ^ 32 = 0) (hlt : out.filled.length < out.size) :
    copyLoop writeFunc n out src = none := by
  obtain ⟨c, src, rfl⟩ := exists_cons_of_ne_nil hsrc
  induction n with
  | zero => rfl
  | succ n ih =>
    rw [copyLoop]
    simp only [hroom, min_zero, take_zero, append_nil, drop_zero]
    rw [if_neg (by omega)]
    exact ih

variable {n : ℕ}

theorem copyLoop_fits {out : Output σ} (hn : 1 ≤ n) (hlt : out.filled.length + src.length < out.size)
    (hfit : src = [] ∨ src.length ≤ (out.size - out.filled.length) % 2 ^ 32) :
    copyLoop writeFunc n out src = some { out with filled := out.filled ++ src } := by
  cases src with
  | nil => simp [copyLoop]
  | cons c src =>
    obtain ⟨n, rfl⟩ : ∃ k, n = k + 1 := ⟨n - 1, by omega⟩
    have hle : src.length + 1 ≤ (out.size - out.filled.length) % 2 ^ 32 := by simpa using hfit
    rw [length_cons] at hlt
    rw [copyLoop]
    simp only [min_eq_left hle]
    have htake : (c :: src).take (src.length + 1) = c :: src := by simp
    have hdrop : (c :: src).drop (src.length + 1) = [] := by simp
    rw [htake, hdrop, if_neg (by simp only [length_append, length_cons]; omega)]
    cases n <;> rfl

theorem copyLoop_wraps {out : Output σ} (hlt : out.filled.length + src.length < out.size) (hne : src ≠ [])
    (hfit : ¬ src.length ≤ (out.size - out.filled.length) % 2 ^ 32) :
    copyLoop writeFunc n out src = none := by
  cases n with
  | zero =>
    obtain ⟨c, src, rfl⟩ := exists_cons_of_ne_nil hne
    rfl
  | succ n =>
    obtain ⟨c, src, rfl⟩ := exists_cons_of_ne_nil hne
    rw [length_cons] at hlt hfit
    set room := (out.size - out.filled.length) % 2 ^ 32 with hroom
    have hmin : min (src.length + 1) room = room := by omega
    have htake : ((c :: src).take room).length = room := by
      rw [length_take, length_cons]
      omega
    rw [copyLoop]
    simp only [← hroom, hmin]
    rw [if_neg (by rw [length_append, htake]; omega)]
    refine copyLoop_stuck n ?_ ?_ ?_
    · rw [ne_eq, drop_eq_nil_iff, length_cons]
      omega
    · simp only [length_append, htake]
      omega
    · simp only [length_append, htake]
      omega

theorem runScript_room (hps : ∀ p ∈ ps, p.Short) {after : ℕ} (ha : 0 < after)
    (out : Output σ) (hsize : out.filled.length + (scriptText ps).length + after = out.size) :
    (RoomFits ps after → runScript writeFunc ps out = some { out with filled := out.filled ++ scriptText ps }) ∧
    (¬ RoomFits ps after → runScript writeFunc ps out = none) := by
  induction ps generalizing out with
  | nil => simp [RoomFits, runScript, scriptText]
  | cons p ps ih =>
    have htext : scriptText (p :: ps) = p.bytes ++ scriptText ps := by simp [scriptText]
    rw [htext, length_append] at hsize
    have hnext := ih (fun q hq ↦ hps q (mem_cons_of_mem p hq))
      { out with filled := out.filled ++ p.bytes } (by simp only [length_append]; omega)
    rw [htext, ← append_assoc]
    cases p with
    | char c =>
      have hc : objectWriteBencodeCChar writeFunc c out = some { out with filled := out.filled ++ [c] } := by
        rw [objectWriteBencodeCChar, if_neg (by simp only [Prim.bytes, length_singleton] at hsize; omega)]
      simp only [runScript, Prim.write, hc, bind_some, RoomFits]
      exact hnext
    | str s =>
      have hs : s.length < 2 ^ 32 := hps _ mem_cons_self
      simp only [Prim.bytes] at hsize
      have hroom : out.size - out.filled.length = s.length + (scriptText ps).length + after := by omega
      simp only [runScript, Prim.write, objectWriteBencodeCString, mod_eq_of_lt hs, take_length, RoomFits]
      by_cases hfit : s = [] ∨ s.length ≤ (s.length + (scriptText ps).length + after) % 2 ^ 32
      · rw [copyLoop_fits (by omega) (by omega) (by rw [hroom]; exact hfit), bind_some]
        simp only [hfit, true_and]
        exact hnext
      have hno := not_or.mp hfit
      rw [copyLoop_wraps (by omega) hno.1 (by rw [hroom]; exact hno.2)]
      exact ⟨fun h ↦ absurd h.1 hfit, fun _ ↦ rfl⟩

end Buffer

/-- A map is written into a buffer of the size of its text, if the room is never counted
as too small. Otherwise the writer does not return. -/
theorem objectWriteBencodeC_buffer {f : UInt32} {m : List (Bytes × Object)} (ho : (Object.map f m).Encodable 0) :
    (RoomFits (Object.scriptMap 0 m) 1 →
      objectWriteBencodeC objectWriteToBuffer [] ((Object.map f m).encode 0).length (.map f m) 0 =
        some ((Object.map f m).encode 0, 0)) ∧
    (¬ RoomFits (Object.scriptMap 0 m) 1 →
      objectWriteBencodeC objectWriteToBuffer [] ((Object.map f m).encode 0).length (.map f m) 0 = none) := by
  have hs : Scripted objectWriteToBuffer _ _ _ := scripted_map 0 m ho
  have hlen : ((Object.map f m).encode 0).length = (Object.encodeMap 0 m).length + 2 := by
    simp [Object.encode]
  have hsize : [ch 'd'].length + (scriptText (Object.scriptMap 0 m)).length + 1 =
      (Object.encodeMap 0 m).length + 2 := by
    rw [hs.text, length_singleton]
    omega
  have hroom : (_ → runScript objectWriteToBuffer _ _ = _) ∧ _ := runScript_room hs.short one_pos
    ⟨[], (Object.encodeMap 0 m).length + 2, [ch 'd']⟩ hsize
  have hopen : objectWriteBencodeCChar objectWriteToBuffer (ch 'd')
      ⟨[], (Object.encodeMap 0 m).length + 2, []⟩ =
      some ⟨[], (Object.encodeMap 0 m).length + 2, [ch 'd']⟩ := by
    rfl
  rw [hlen, objectWriteBencodeC, if_pos (by simp), objectWriteBencodeCObject, hopen]
  simp only [Option.bind_eq_bind, bind_some, hs.run]
  refine ⟨fun hfit ↦ ?_, fun hfit ↦ ?_⟩
  · rw [hroom.1 hfit, hs.text]
    simp [objectWriteBencodeCChar, objectWriteToBuffer, Object.encode]
  · rw [hroom.2 hfit]
    rfl

end LibTorrent
