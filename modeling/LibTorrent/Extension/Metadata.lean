import LibTorrent.Extension.Message

namespace LibTorrent

open Lib.Decimal List Object Option UInt64

def metadataPieceShift : UInt64 := 14

def metadataPieceSize : UInt64 := 1 <<< metadataPieceShift

structure MetadataSource where
  isMetaDownload : Bool
  metadataSize : UInt64
  info : Object

def downloadAdd (info : Object) : Option MetadataSource :=
  (objectWriteBencodeC objectWriteToSize 0 1024 info 0).map fun p ↦ ⟨false, p.1, info⟩

variable (d : MetadataSource)

def MetadataSource.pieceEnd : UInt64 :=
  (d.metadataSize + metadataPieceSize - 1) >>> metadataPieceShift

/-- `send_metadata_piece`, the message it leaves in `m_pending`. -/
def sendMetadataPiece (piece : UInt64) : Option Bytes :=
  if d.isMetaDownload ∨ piece ≥ d.pieceEnd then buildBencode (8 + 36) (rejectText piece.toNat)
  else do
    let (buffer, _) ← objectWriteBencodeC objectWriteToBuffer [] d.metadataSize.toNat d.info 0
    let length := if piece = d.pieceEnd - 1 then d.metadataSize % metadataPieceSize else metadataPieceSize
    let head ← buildBencode (2 * 8 + length.toNat + 120) (dataText piece.toNat d.metadataSize.toNat)
    some (head ++ (buffer.drop (piece <<< metadataPieceShift).toNat).take length.toNat)

theorem flatMap_chunks {α : Type} (l : List α) (c n : ℕ) :
    ((List.range n).flatMap fun k ↦ (l.drop (k * c)).take c) = l.take (n * c) := by
  induction n with
  | zero => simp
  | succ n ih =>
    rw [range_succ, flatMap_append, ih, flatMap_singleton, Nat.succ_mul, ← take_add]

def pieceCount (size : ℕ) : ℕ := (size + 16383) / 16384

def pieceLength (size k : ℕ) : ℕ := if k + 1 = pieceCount size then size % 16384 else 16384

def Answers (k : ℕ) (data : Bytes) : Prop :=
  ∃ reply, sendMetadataPiece d (ofNat k) = some reply ∧
    objectReadBencodeC reply 0 = some ((.map 0 (fieldObjects
      [(msgTypeKey, 1), (pieceKey, k), (totalSizeKey, d.metadataSize.toNat)]), false), data)

/-- The peer gets `metadata` by asking for every piece: each is a full one except the
last, which has at least one byte. -/
def Serves (metadata : Bytes) : Prop :=
  ∃ data : ℕ → Bytes, (∀ k < pieceCount metadata.length, Answers d k (data k)) ∧
    (List.range (pieceCount metadata.length)).flatMap data = metadata ∧
    (∀ k, k + 1 < pieceCount metadata.length → (data k).length = 16384) ∧
    ∀ k < pieceCount metadata.length, data k ≠ []

/-- The answer of `d` to a request for piece `v` is a whole dictionary that rejects it. -/
def Rejects (v : Int64) : Prop :=
  ∃ reply, sendMetadataPiece d v.toUInt64 = some reply ∧
    objectReadBencodeC reply 0 = some ((.map 0 [(msgTypeKey, .value 0 2), (pieceKey, .value 0 v)], false), [])

theorem length_fieldsText_reject (n : ℕ) :
    (fieldsText [(msgTypeKey, 2), (pieceKey, n)]).length = (decimal n).length + 22 := by
  simp only [fieldsText, flatMap_cons, flatMap_nil, stringText_keys, decimal_of_lt_ten (d := 2) (by decide),
    length_append, length_cons, length_nil]
  simp [ascii]
  omega

variable {n : ℕ} {d : MetadataSource}

theorem lt_length_decimal (h : 10 ^ k ≤ n) : k < (decimal n).length := by
  have hn : n ≠ 0 := Nat.ne_of_gt (lt_of_lt_of_le (Nat.pow_pos (by decide)) h)
  rw [decimal, if_neg hn, length_reverse, length_map]
  exact (Nat.lt_digits_length_iff (by decide) n).mpr h

theorem int64_ofNat_toUInt64 (v : Int64) : Int64.ofNat v.toUInt64.toNat = v := by
  apply Int64.toBitVec.inj
  simp

theorem sendMetadataPiece_rejects_iff {v : Int64}
    (h : d.isMetaDownload ∨ v.toUInt64 ≥ d.pieceEnd) : Rejects d v ↔ v.toUInt64.toNat < 10 ^ 19 := by
  have hsort : ([(msgTypeKey, 2), (pieceKey, v.toUInt64.toNat)].map Prod.fst).Pairwise (· < ·) := by
    simp
    decide
  have hlt := v.toUInt64.toNat_lt
  have h20 : (decimal v.toUInt64.toNat).length ≤ 20 := length_decimal_le (by decide) (by omega)
  have hlen := length_fieldsText_reject v.toUInt64.toNat
  constructor
  · intro ⟨reply, hreply, hread⟩
    by_contra hbig
    have hd : (decimal v.toUInt64.toNat).length = 20 := by
      have := lt_length_decimal (Nat.le_of_not_lt hbig)
      omega
    rw [sendMetadataPiece, if_pos h, rejectText_eq, ← cons_append] at hreply
    have hfull := buildBencode_full (ch 'd' :: fieldsText [(msgTypeKey, 2), (pieceKey, v.toUInt64.toNat)]) (ch 'e')
    rw [length_cons, hlen, hd] at hfull
    rw [hfull, some.injEq] at hreply
    rw [← hreply, cons_append, objectReadBencodeC_fields_zero hsort (by simp; omega)] at hread
    simp at hread
  · intro hsmall
    have hd := length_decimal_le (by decide) hsmall
    refine ⟨rejectText v.toUInt64.toNat, ?_, ?_⟩
    · rw [sendMetadataPiece, if_pos h, buildBencode_of_lt]
      rw [rejectText_eq]
      simp
      omega
    rw [rejectText_eq, objectReadBencodeC_fields hsort (by simp; omega)]
    simp only [fieldObjects, map_cons, map_nil, int64_ofNat_toUInt64]
    rfl

section Serve

variable {d : MetadataSource} {k : ℕ}

theorem pieceEnd_toNat (h : d.metadataSize.toNat < 2 ^ 63) :
    d.pieceEnd.toNat = pieceCount d.metadataSize.toNat := by
  have hsize : metadataPieceSize = 16384 := by decide
  have hsub : d.metadataSize + 16384 - 1 = d.metadataSize + 16383 := by
    rw [UInt64.sub_eq_add_neg, UInt64.add_assoc]
    rfl
  have hadd : (d.metadataSize + 16383).toNat = d.metadataSize.toNat + 16383 := by
    rw [UInt64.toNat_add, Nat.mod_eq_of_lt]
    · rfl
    · have h' : (16383 : UInt64).toNat = 16383 := rfl
      omega
  rw [MetadataSource.pieceEnd, hsize, hsub, UInt64.toNat_shiftRight, hadd, Nat.shiftRight_eq_div_pow]
  rfl

theorem pieceCount_lt {size : ℕ} (h : size < 2 ^ 63) : pieceCount size < 2 ^ 50 := by
  rw [pieceCount]
  omega

theorem length_dataText_lt {m : ℕ} (hn : n < 2 ^ 63) (hm : m < 2 ^ 63) : (dataText n m).length < 136 := by
  have h₁ : (decimal n).length ≤ 20 := length_decimal_le (by decide) (by omega)
  have h₂ : (decimal m).length ≤ 20 := length_decimal_le (by decide) (by omega)
  simp only [dataText, length_append]
  simp [ascii]
  omega

theorem sendMetadataPiece_data (hm : d.isMetaDownload = false) (h : d.metadataSize.toNat < 2 ^ 63)
    (hk : k < pieceCount d.metadataSize.toNat) :
    sendMetadataPiece d (ofNat k) =
      (objectWriteBencodeC objectWriteToBuffer [] d.metadataSize.toNat d.info 0).map fun p ↦
        dataText k d.metadataSize.toNat ++ (p.1.drop (k * 16384)).take
          (pieceLength d.metadataSize.toNat k) := by
  have hend := pieceEnd_toNat h
  have hcount := pieceCount_lt h
  have hk64 : (ofNat k).toNat = k := toNat_ofNat_of_lt (by simp only [size]; omega)
  have hnot : ¬ (d.isMetaDownload = true ∨ ofNat k ≥ d.pieceEnd) := by
    simp [hm, lt_iff_toNat_lt, hend]
    omega
  have hlast : (ofNat k = d.pieceEnd - 1) ↔ k + 1 = pieceCount d.metadataSize.toNat := by
    have hone : (1 : UInt64).toNat = 1 := rfl
    rw [← UInt64.toNat_inj, hk64, UInt64.toNat_sub_of_le _ _ (UInt64.le_iff_toNat_le.mpr (by omega)), hend, hone]
    omega
  have hlen : (if ofNat k = d.pieceEnd - 1 then d.metadataSize % metadataPieceSize
      else metadataPieceSize).toNat =
      pieceLength d.metadataSize.toNat k := by
    rw [pieceLength]
    by_cases hk : k + 1 = pieceCount d.metadataSize.toNat
    · rw [if_pos hk, if_pos (hlast.mpr hk), UInt64.toNat_mod]
      rfl
    · rw [if_neg hk, if_neg fun hl ↦ hk (hlast.mp hl)]
      rfl
  have hshift : (ofNat k <<< metadataPieceShift).toNat = k * 16384 := by
    have hpow : 2 ^ (metadataPieceShift.toNat % 64) = 16384 := rfl
    rw [UInt64.toNat_shiftLeft, hk64, Nat.shiftLeft_eq, hpow, Nat.mod_eq_of_lt (by omega)]
  rw [sendMetadataPiece, if_neg hnot]
  simp only [hlen, hshift, hk64]
  cases objectWriteBencodeC objectWriteToBuffer [] d.metadataSize.toNat d.info 0 with
  | none => rfl
  | some p =>
    rw [buildBencode_of_lt]
    · rfl
    · have := length_dataText_lt (n := k) (by omega) h
      omega

variable {metadata : Bytes}

variable (hm : d.isMetaDownload = false) (h : d.metadataSize.toNat < 2 ^ 63)
include hm h

theorem answers_iff (hk : k < pieceCount d.metadataSize.toNat) {data : Bytes}
    (hw : objectWriteBencodeC objectWriteToBuffer [] d.metadataSize.toNat d.info 0 = some (metadata, n)) :
    Answers d k data ↔ data = (metadata.drop (k * 16384)).take
      (pieceLength d.metadataSize.toNat k) := by
  have hcount := pieceCount_lt h
  have hle : pieceLength d.metadataSize.toNat k ≤ 16384 := by
    rw [pieceLength]
    split_ifs <;> omega
  have hread : objectReadBencodeC (dataText k d.metadataSize.toNat ++ (metadata.drop (k * 16384)).take
      (pieceLength d.metadataSize.toNat k)) 0 =
      some ((.map 0 (fieldObjects [(msgTypeKey, 1), (pieceKey, k), (totalSizeKey, d.metadataSize.toNat)]), false),
        (metadata.drop (k * 16384)).take
          (pieceLength d.metadataSize.toNat k)) := by
    have hlen := length_dataText_lt (n := k) (by omega) h
    rw [dataText_eq] at hlen ⊢
    rw [cons_append, append_assoc, singleton_append]
    rw [objectReadBencodeC_fields (by simp; decide)]
    simp only [length_append, length_cons, length_take, length_nil] at hlen ⊢
    omega
  rw [Answers, sendMetadataPiece_data hm h hk, hw]
  constructor
  · intro ⟨reply, hreply, hdata⟩
    rw [Option.map_some, some.injEq] at hreply
    rw [← hreply, hread] at hdata
    simpa using hdata.symm
  intro hdata
  rw [hdata]
  exact ⟨_, rfl, hread⟩

theorem serves_iff (hlen : metadata.length = d.metadataSize.toNat) (hpos : metadata ≠ [])
    (hw : objectWriteBencodeC objectWriteToBuffer [] d.metadataSize.toNat d.info 0 = some (metadata, n)) :
    Serves d metadata ↔ metadata.length % 16384 ≠ 0 := by
  have hcount : pieceCount metadata.length = (metadata.length + 16383) / 16384 := rfl
  have hpos := length_pos_of_ne_nil hpos
  constructor
  · intro ⟨data, hdata, hcat, hfull, hne⟩ hmul
    have hk : pieceCount metadata.length - 1 < pieceCount metadata.length := by omega
    have hlast := hdata _ hk
    rw [answers_iff hm (hlen ▸ h) (hlen ▸ hk) hw, ← hlen, pieceLength, if_pos (by omega), hmul, take_zero] at hlast
    exact hne _ hk hlast
  intro hmul
  refine ⟨fun k ↦ (metadata.drop (k * 16384)).take 16384, ?_, ?_, ?_, ?_⟩
  · intro k hk
    rw [answers_iff hm (hlen ▸ h) (hlen ▸ hk) hw, ← hlen, pieceLength]
    split_ifs with hlast
    · have hrest : (metadata.drop (k * 16384)).length = metadata.length % 16384 := by
        rw [length_drop]
        omega
      rw [← hrest, take_length]
      exact take_of_length_le (by omega)
    · rfl
  · rw [flatMap_chunks, take_of_length_le (by omega)]
  · intro k hk
    rw [length_take, length_drop]
    omega
  · intro k hk hnil
    have := congrArg List.length hnil
    simp only [length_take, length_drop, length_nil] at this
    omega

end Serve

theorem downloadAdd_eq {info : Object} (hflags : info.Encodable 0) :
    downloadAdd info = some ⟨false, ofNat (info.encode 0).length, info⟩ := by
  have h : (objectWriteBencodeC objectWriteToSize 0 1024 info 0).map Prod.fst = some _ :=
    objectWriteBencodeC_absorb absorbs_size 0 (by decide) (by decide) (by simp) hflags
  rw [downloadAdd]
  cases hw : objectWriteBencodeC objectWriteToSize 0 1024 info 0 with
  | none => simp [hw] at h
  | some p =>
    rw [hw, Option.map_some, some.injEq] at h
    simp [h]

theorem serves_of_downloadAdd {f : UInt32} {m : List (Bytes × Object)} (ho : (map f m).Encodable 0)
    (hM : ((map f m).encode 0).length < 2 ^ 63) (hd : downloadAdd (.map f m) = some d) :
    Serves d ((map f m).encode 0) ↔
      ((map f m).encode 0).length % 16384 ≠ 0 ∧ RoomFits (scriptMap 0 m) 1 := by
  obtain rfl : ⟨false, ofNat ((map f m).encode 0).length, .map f m⟩ = d := by
    rwa [downloadAdd_eq ho, some.injEq] at hd
  have hsize : (ofNat ((map f m).encode 0).length).toNat = ((map f m).encode 0).length :=
    toNat_ofNat_of_lt (by simp only [size]; omega)
  have hne : (map f m).encode 0 ≠ [] := by simp [encode]
  by_cases hroom : RoomFits (scriptMap 0 m) 1
  · rw [serves_iff rfl (by rwa [hsize]) hsize.symm hne (by rw [hsize]; exact (objectWriteBencodeC_buffer ho).1 hroom)]
    exact (and_iff_left hroom).symm
  refine ⟨fun ⟨data, hdata, _⟩ ↦ ?_, fun hs ↦ absurd hs.2 hroom⟩
  have hk : 0 < pieceCount ((map f m).encode 0).length := by
    have := length_pos_of_ne_nil hne
    rw [pieceCount]
    omega
  obtain ⟨reply, hreply, _⟩ := hdata 0 hk
  rw [sendMetadataPiece_data rfl (by rwa [hsize]) (by rwa [hsize]), hsize,
    (objectWriteBencodeC_buffer ho).2 hroom] at hreply
  simp at hreply

/-- A download serves its info dictionary exactly when the size is no multiple of the
piece size, as the writer's 32-bit count of the room left never falls short of a string.
Out of range pieces are rejected with a whole dictionary exactly when they have fewer
than twenty digits. -/
theorem sendMetadataPiece_iff (f : UInt32) (m : List (Bytes × Object)) (ho : (map f m).Encodable 0)
    (hM : ((map f m).encode 0).length < 2 ^ 63) :
    (∃ d, downloadAdd (.map f m) = some d ∧ (Serves d ((map f m).encode 0) ↔
        ((map f m).encode 0).length % 16384 ≠ 0 ∧ RoomFits (scriptMap 0 m) 1)) ∧
      ∀ (d : MetadataSource) (v : Int64), d.isMetaDownload ∨ v.toUInt64 ≥ d.pieceEnd →
        (Rejects d v ↔ v.toUInt64.toNat < 10 ^ 19) := by
  refine ⟨⟨_, downloadAdd_eq ho, ?_⟩, fun d v h ↦ sendMetadataPiece_rejects_iff h⟩
  exact serves_of_downloadAdd ho hM (downloadAdd_eq ho)

theorem sendMetadataPiece_iff_name :
    ∃ d, downloadAdd (.map 0 [(ascii "name", .string 0 (ascii "ab"))]) = some d ∧
      Serves d (ascii "d4:name2:abe") ∧ Rejects d 1 := by
  have ho : (map 0 [(ascii "name", .string 0 (ascii "ab"))]).Encodable 0 :=
    ⟨.inr (.inr ⟨by decide, show 2 < 2 ^ 32 by decide⟩), trivial⟩
  obtain ⟨⟨d, hd, hserves⟩, hrejects⟩ := sendMetadataPiece_iff 0 _ ho (by decide +kernel)
  have hsize : d.pieceEnd = 1 := by
    rw [downloadAdd_eq ho, some.injEq] at hd
    rw [← hd]
    decide +kernel
  refine ⟨d, hd, hserves.mpr ⟨by decide +kernel, ?_⟩, (hrejects d 1 (.inr (by rw [hsize]; decide))).mpr (by decide)⟩
  exact ⟨.inr (by decide +kernel), .inr (by decide +kernel), .inr (by decide +kernel), .inr (by decide +kernel), trivial⟩

theorem length_encode_name {s : Bytes} :
    ((Object.map 0 [(ascii "name", .string 0 s)]).encode 0).length = (decimal s.length).length + s.length + 9 := by
  have h : stringText (ascii "name") = ascii "4:name" := by
    rfl
  rw [Object.encode, Object.encodeMap, if_neg (by simp [Object.isEmpty]), h, Object.encode, Object.encodeMap]
  simp [stringText, ascii]
  omega

/-- An info dictionary of exactly one full piece: the reply has no data. The reject of
piece `2 ^ 64 - 1` is cut before its last byte. -/
theorem sendMetadataPiece_full_piece : ∃ (s : Bytes) (d : MetadataSource), s.length = 16370 ∧
      downloadAdd (.map 0 [(ascii "name", .string 0 s)]) = some d ∧
      ((map 0 [(ascii "name", .string 0 s)]).encode 0).length = 16384 ∧
      ¬ Serves d ((map 0 [(ascii "name", .string 0 s)]).encode 0) ∧
      d.pieceEnd ≤ (-1 : Int64).toUInt64 ∧ ¬ Rejects d (-1) := by
  obtain ⟨s, hs⟩ : ∃ s, s = List.replicate 16370 (ch 'a') := ⟨_, rfl⟩
  have hslen : s.length = 16370 := by rw [hs, length_replicate]
  have ho : (map 0 [(ascii "name", .string 0 s)]).Encodable 0 := by
    refine ⟨.inr (.inr ⟨by decide, ?_⟩), trivial⟩
    change s.length < 2 ^ 32
    omega
  have hlen : ((map 0 [(ascii "name", .string 0 s)]).encode 0).length = 16384 := by
    rw [length_encode_name, hslen]
    simp [decimal]
  have hend : (-1 : Int64).toUInt64 ≥ MetadataSource.pieceEnd
      ⟨false, ofNat ((map 0 [(ascii "name", .string 0 s)]).encode 0).length,
        .map 0 [(ascii "name", .string 0 s)]⟩ := by
    simp only [MetadataSource.pieceEnd, hlen]
    decide
  refine ⟨s, _, hslen, downloadAdd_eq ho, hlen, ?_, hend, ?_⟩
  · rw [serves_of_downloadAdd ho (by omega) (downloadAdd_eq ho), hlen]
    simp
  · rw [sendMetadataPiece_rejects_iff (.inr hend)]
    decide

end LibTorrent
