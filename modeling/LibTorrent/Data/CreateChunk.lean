import LibTorrent.Data.FileRanges

namespace LibTorrent

structure Storage extends Layout where
  chunkSize_pos : 0 < chunkSize
  chunkSize_lt : chunkSize < 2 ^ 32
  torrentSize_lt : toLayout.torrentSize < 2 ^ 63

/-- `ChunkPart` with its `set_file`: the place of the file in the list, where the part begins in the file, its size, and
where it begins in the chunk. -/
structure MappedPart where
  file : ℕ
  fileOffset : ℕ
  size : ℕ
  position : ℕ
  deriving DecidableEq

def File.isValidPosition (p : ℕ) (f : File) : Bool := f.offset ≤ p ∧ p < (f.offset + f.sizeBytes) % 2 ^ 64

namespace Storage

variable (t : Storage)

def files : List File := Layout.split t.chunkSize 0 t.entries

def chunkIndexSize (index : ℕ) : ℕ :=
  if (index + 1) % 2 ^ 32 ≠ t.sizeChunks ∨ t.torrentSize % t.chunkSize = 0 then t.chunkSize
  else t.torrentSize % t.chunkSize

variable (maps : ℕ → ℕ → ℕ → Bool)

/-- `create_chunk_part`: the size of what is mapped. Whether the file can be prepared and a range of it be mapped is asked
of `maps`, for the place of the file, the offset in it and the length. -/
def createChunkPart (j : ℕ) (f : File) (offset length : ℕ) : Except String (Option ℕ) :=
  let offset := (offset + 2 ^ 64 - f.offset) % 2 ^ 64
  let length := min length ((f.sizeBytes + 2 ^ 64 - offset) % 2 ^ 64)
  if f.isPadding then .ok (if maps j offset length then some length else none)
  else if 2 ^ 63 ≤ offset then .error "FileList::chunk_part(...) caught a negative offset"
  else if !maps j offset length then .ok none
  else if length = 0 then .error "FileList::create_chunk(...) mc.size() == 0."
  else .ok (some length)

/-- The loop of `create_chunk` over the files from place `j` on. -/
def createParts : ℕ → List File → ℕ → ℕ → ℕ → Except String (Option (List MappedPart))
  | _, _, _, 0, _ => .ok (some [])
  | _, [], _, _ + 1, _ => .error "FileList could not find a valid file for chunk"
  | j, f :: files, offset, length + 1, position =>
    if f.sizeBytes = 0 then createParts (j + 1) files offset (length + 1) position
    else do
      match ← createChunkPart maps j f offset (length + 1) with
      | none => .ok none
      | some size =>
        let part := ⟨j, (offset + 2 ^ 64 - f.offset) % 2 ^ 64, size, position⟩
        let rest ← createParts (j + 1) files ((offset + size) % 2 ^ 64) (length + 1 - size) (position + size)
        .ok (rest.map (part :: ·))

def createChunk (offset length : ℕ) : Except String (Option (List MappedPart)) :=
  if t.torrentSize < (offset + length) % 2 ^ 64 then .error "Tried to access chunk out of range in FileList"
  else do
    let j := t.files.findIdx (File.isValidPosition offset)
    match ← createParts maps j (t.files.drop j) offset length 0 with
    | some (p :: parts) => .ok (some (p :: parts))
    | _ => .ok none

def createChunkIndex (index : ℕ) : Except String (Option (List MappedPart)) :=
  t.createChunk maps (index * t.chunkSize) (t.chunkIndexSize index)

end Storage

variable {f : File}

namespace MappedPart

def torrentBytes (files : List File) (p : MappedPart) : List ℕ :=
  List.range' (((files[p.file]?.map File.offset).getD 0) + p.fileOffset) p.size

def Inside (files : List File) (p : MappedPart) : Prop :=
  0 < p.size ∧ ∃ f, files[p.file]? = some f ∧ p.fileOffset + p.size ≤ f.sizeBytes

def Within (files : List File) (offset length : ℕ) (p : MappedPart) : Prop :=
  p.Inside files ∧ ∃ f, files[p.file]? = some f ∧ offset ≤ f.offset + p.fileOffset ∧
    f.offset + p.fileOffset + p.size ≤ offset + length

/-- The parts lie in their files and map the bytes of the torrent from an offset on, in order, each at the place in the
chunk that the ones before it leave. -/
structure Spans (files : List File) (offset length position : ℕ) (parts : List MappedPart) : Prop where
  sizes : (parts.map size).sum = length
  inside : ∀ p ∈ parts, p.Inside files
  bytes : parts.flatMap (torrentBytes files) = List.range' offset length
  placed : ∀ pre p post, parts = pre ++ p :: post → p.position = position + (pre.map size).sum

variable {files : List File} {offset length position : ℕ} {p : MappedPart} {parts : List MappedPart}

theorem spans_nil : Spans files offset 0 position [] := ⟨rfl, nofun, rfl, fun _ _ _ h ↦ absurd h (by simp)⟩

theorem Spans.cons (hf : files[p.file]? = some f) (hoffset : f.offset + p.fileOffset = offset)
    (hsize : 0 < p.size) (hinside : p.fileOffset + p.size ≤ f.sizeBytes) (hposition : p.position = position)
    (h : Spans files (offset + p.size) length (position + p.size) parts) :
    Spans files offset (p.size + length) position (p :: parts) where
  sizes := by rw [List.map_cons, List.sum_cons, h.sizes]
  inside q hq := by
    rcases List.mem_cons.mp hq with rfl | hq
    · exact ⟨hsize, f, hf, hinside⟩
    · exact h.inside q hq
  bytes := by
    rw [List.flatMap_cons, h.bytes, torrentBytes, hf, Option.map_some, Option.getD_some, hoffset, List.range'_append_1]
  placed pre q post hq := by
    cases pre with
    | nil =>
      obtain ⟨rfl, -⟩ := List.cons.inj hq
      exact hposition
    | cons p' pre =>
      obtain ⟨rfl, hrest⟩ := List.cons.inj hq
      rw [h.placed pre q post hrest, List.map_cons, List.sum_cons, add_assoc]

end MappedPart

namespace Storage

open File List MappedPart Nat

variable {maps : ℕ → ℕ → ℕ → Bool}

def Consecutive : ℕ → List File → Prop
  | _, [] => True
  | offset, f :: files => f.offset = offset ∧ Consecutive (offset + f.sizeBytes) files

def totalSize (files : List File) : ℕ := (files.map sizeBytes).sum

theorem setRange_keeps (cs : ℕ) (f : File) :
    (setRange cs f).offset = f.offset ∧ (setRange cs f).sizeBytes = f.sizeBytes := by
  unfold setRange
  split_ifs <;> exact ⟨rfl, rfl⟩

theorem consecutive_split (cs offset : ℕ) (entries : List (ℕ × Bool)) :
    Consecutive offset (Layout.split cs offset entries) ∧
      totalSize (Layout.split cs offset entries) = (entries.map Prod.fst).sum := by
  induction entries generalizing offset with
  | nil => exact ⟨trivial, rfl⟩
  | cons e entries ih =>
    obtain ⟨hoffset, hsize⟩ := setRange_keeps cs ⟨offset, e.1, e.2, 0, 0, 0⟩
    obtain ⟨hrest, htotal⟩ := ih (offset + e.1)
    refine ⟨⟨hoffset, ?_⟩, ?_⟩
    · rw [hsize]
      exact hrest
    · rw [Layout.split, totalSize, map_cons, sum_cons, hsize, map_cons, sum_cons]
      exact congrArg (e.1 + ·) htotal

def Creates (maps : ℕ → ℕ → ℕ → Bool) (files : List File) (offset length position : ℕ) :
    Option (List MappedPart) → Prop
  | some parts => Spans files offset length position parts ∧ ∀ p ∈ parts, maps p.file p.fileOffset p.size = true
  | none => ∃ p : MappedPart, p.Within files offset length ∧ maps p.file p.fileOffset p.size = false

variable {offset length j position base : ℕ} {files : List File}

theorem createChunkPart_eq (hlow : f.offset ≤ offset)
    (hhigh : offset < f.offset + f.sizeBytes) (hend : f.offset + f.sizeBytes < 2 ^ 63) (hlength : 0 < length) :
    createChunkPart maps j f offset length =
      .ok (if maps j (offset - f.offset) (min length (f.offset + f.sizeBytes - offset)) then
        some (min length (f.offset + f.sizeBytes - offset)) else none) := by
  have hoffset : (offset + 2 ^ 64 - f.offset) % 2 ^ 64 = offset - f.offset := by omega
  have hsize : (f.sizeBytes + 2 ^ 64 - (offset - f.offset)) % 2 ^ 64 = f.offset + f.sizeBytes - offset := by omega
  simp only [createChunkPart, hoffset, hsize]
  have hneg : ¬ 2 ^ 63 ≤ offset - f.offset := by omega
  have hzero : ¬ min length (f.offset + f.sizeBytes - offset) = 0 := by omega
  rw [if_neg hneg, if_neg hzero]
  cases f.isPadding <;> cases maps j (offset - f.offset) (min length (f.offset + f.sizeBytes - offset)) <;> rfl

theorem Creates.cons
    {r : Option (List MappedPart)} (hf : files[p.file]? = some f) (hoffset : f.offset + p.fileOffset = offset)
    (hsize : 0 < p.size) (hinside : p.fileOffset + p.size ≤ f.sizeBytes) (hposition : p.position = position)
    (hmaps : maps p.file p.fileOffset p.size = true)
    (hr : Creates maps files (offset + p.size) length (position + p.size) r) :
    Creates maps files offset (p.size + length) position (r.map (p :: ·)) := by
  cases r with
  | none =>
    obtain ⟨q, ⟨hq, g, hg, hlow, hhigh⟩, hno⟩ := hr
    exact ⟨q, ⟨hq, g, hg, by omega, by omega⟩, hno⟩
  | some parts =>
    refine ⟨hr.1.cons hf hoffset hsize hinside hposition, fun q hq ↦ ?_⟩
    rcases mem_cons.mp hq with rfl | hq
    · exact hmaps
    · exact hr.2 q hq

theorem createParts_creates {rest : List File} (hrest : files.drop j = rest)
    (hfiles : Consecutive base rest) (hlow : base ≤ offset)
    (hhigh : offset = base ∨ ∃ f ∈ rest.head?, offset < base + f.sizeBytes)
    (hend : offset + length ≤ base + totalSize rest) (htotal : base + totalSize rest < 2 ^ 63) :
    ∃ r, createParts maps j rest offset length position = .ok r ∧ Creates maps files offset length position r := by
  induction rest generalizing j base offset length position with
  | nil =>
    have hnone : length = 0 := by
      rcases hhigh with rfl | ⟨f, hf, -⟩
      · change offset + length ≤ offset + 0 at hend
        omega
      · cases hf
    subst hnone
    exact ⟨some [], by rw [createParts], spans_nil, nofun⟩
  | cons f rest ih =>
    obtain ⟨hf, hfiles⟩ := hfiles
    have hsum : totalSize (f :: rest) = f.sizeBytes + totalSize rest := rfl
    have hget : files[j]? = some f := by rw [← List.head?_drop, hrest, List.head?_cons]
    have hdrop : files.drop (j + 1) = rest := by rw [← List.tail_drop, hrest, List.tail_cons]
    cases length with
    | zero => exact ⟨some [], by rw [createParts], spans_nil, nofun⟩
    | succ length =>
      rw [createParts]
      by_cases hzero : f.sizeBytes = 0
      · rw [if_pos hzero]
        have hoffset : offset = base := by
          rcases hhigh with h | ⟨g, hg, h⟩
          · exact h
          · cases hg
            omega
        exact ih hdrop hfiles (by omega) (.inl (by omega)) (by omega) (by omega)
      · rw [if_neg hzero]
        have hin : offset < f.offset + f.sizeBytes := by
          rcases hhigh with h | ⟨g, hg, h⟩
          · omega
          · cases hg
            omega
        rw [createChunkPart_eq (by omega) hin (by omega) (succ_pos length)]
        generalize hn : min (length + 1) (f.offset + f.sizeBytes - offset) = n
        have hoffset : (offset + 2 ^ 64 - f.offset) % 2 ^ 64 = offset - f.offset := by omega
        have hmod : (offset + n) % 2 ^ 64 = offset + n := by omega
        cases hmaps : maps j (offset - f.offset) n with
        | false =>
          refine ⟨none, rfl, ⟨j, offset - f.offset, n, position⟩, ⟨⟨?_, f, hget, ?_⟩, f, hget, ?_, ?_⟩, hmaps⟩
          all_goals
            dsimp only
            omega
        | true =>
          have hnext : ∃ r, createParts maps (j + 1) rest (offset + n) (length + 1 - n) (position + n) = .ok r ∧
              Creates maps files (offset + n) (length + 1 - n) (position + n) r := by
            by_cases hall : n = length + 1
            · refine ⟨some [], ?_, ?_⟩
              · rw [hall, Nat.sub_self, createParts]
              · rw [hall, Nat.sub_self]
                exact ⟨spans_nil, nofun⟩
            · exact ih hdrop hfiles (by omega) (.inl (by omega)) (by omega) (by omega)
          obtain ⟨r, hr, hcreates⟩ := hnext
          refine ⟨r.map (⟨j, offset - f.offset, n, position⟩ :: ·), ?_, ?_⟩
          · simp only [if_true, Lib.Outcome.ok_bind, hoffset, hmod, hr]
          have hlen : length + 1 = n + (length + 1 - n) := by omega
          rw [hlen]
          refine Creates.cons hget ?_ ?_ ?_ rfl hmaps hcreates
          all_goals
            dsimp only
            omega

theorem findIdx_isValidPosition (hfiles : Consecutive base files) (hlow : base ≤ offset)
    (hhigh : offset < base + totalSize files) (htotal : base + totalSize files < 2 ^ 63) :
    ∃ f rest, files.drop (files.findIdx (isValidPosition offset)) = f :: rest ∧ f.offset ≤ offset ∧
      offset < f.offset + f.sizeBytes ∧ Consecutive f.offset (f :: rest) ∧
      f.offset + totalSize (f :: rest) = base + totalSize files := by
  induction files generalizing base with
  | nil =>
    change offset < base + 0 at hhigh
    omega
  | cons f files ih =>
    obtain ⟨hf, hrest⟩ := hfiles
    have hsum : totalSize (f :: files) = f.sizeBytes + totalSize files := rfl
    rw [findIdx_cons]
    by_cases hin : offset < base + f.sizeBytes
    · have hvalid : isValidPosition offset f = true := by
        rw [isValidPosition, decide_eq_true_iff]
        omega
      rw [hvalid, cond_true, drop_zero]
      refine ⟨f, files, rfl, by omega, by omega, ⟨rfl, ?_⟩, by rw [hf]⟩
      rw [hf]
      exact hrest
    · have hvalid : isValidPosition offset f = false := by
        rw [isValidPosition, decide_eq_false_iff_not]
        omega
      rw [hvalid, cond_false, drop_succ_cons, hsum]
      obtain ⟨g, rest, hdrop, hg⟩ := ih hrest (by omega) (by omega) (by omega)
      exact ⟨g, rest, hdrop, hg.1, hg.2.1, hg.2.2.1, by rw [hg.2.2.2]; omega⟩

theorem createChunk_creates (t : Storage) (maps : ℕ → ℕ → ℕ → Bool) (hlength : 0 < length)
    (hend : offset + length ≤ t.torrentSize) :
    ∃ r, t.createChunk maps offset length = .ok r ∧ Creates maps t.files offset length 0 r := by
  have hfiles : Consecutive 0 t.files := (consecutive_split t.chunkSize 0 t.entries).1
  have hsize : totalSize t.files = t.torrentSize := (consecutive_split t.chunkSize 0 t.entries).2
  have hlt := t.torrentSize_lt
  obtain ⟨f, rest, hdrop, hlow, hhigh, hrest, hsum⟩ :=
    findIdx_isValidPosition hfiles (zero_le offset) (by omega) (by omega)
  have hparts : ∃ r, createParts maps _ (f :: rest) offset length 0 = .ok r ∧ Creates maps t.files offset length 0 r :=
    createParts_creates hdrop hrest hlow (.inr ⟨f, rfl, hhigh⟩) (by omega) (by omega)
  obtain ⟨r, hr, hcreates⟩ := hparts
  have hmod : ¬ t.torrentSize < (offset + length) % 2 ^ 64 := by omega
  refine ⟨r, ?_, hcreates⟩
  rw [createChunk, if_neg hmod]
  dsimp only
  rw [hdrop, hr, Lib.Outcome.ok_bind]
  cases r with
  | none => rfl
  | some parts =>
    cases parts with
    | nil => exact absurd hcreates.1.sizes hlength.ne
    | cons p parts => rfl

theorem chunkIndexSize_pos (t : Storage) (index : ℕ) : 0 < t.chunkIndexSize index := by
  have hpos := t.chunkSize_pos
  unfold chunkIndexSize
  split_ifs with h
  · exact hpos
  · exact pos_of_ne_zero (not_or.mp h).2

theorem chunkIndexSize_le (t : Storage) {index : ℕ} (hindex : index < t.sizeChunks) :
    index * t.chunkSize + t.chunkIndexSize index ≤ t.torrentSize := by
  have hpos := t.chunkSize_pos
  have hle : t.sizeChunks ≤ (t.torrentSize + t.chunkSize - 1) / t.chunkSize := mod_le _ _
  have hlt : t.sizeChunks < 2 ^ 32 := mod_lt _ (by decide)
  have hstart := (Layout.lt_ceil hpos _ _).mp (hindex.trans_le hle)
  have hdiv := div_add_mod t.torrentSize t.chunkSize
  have hquot : index * t.chunkSize ≤ t.chunkSize * (t.torrentSize / t.chunkSize) := by
    rw [mul_comm t.chunkSize]
    exact mul_le_mul_right _ ((le_div_iff_mul_le hpos).mpr hstart.le)
  unfold chunkIndexSize
  split_ifs with h
  · rw [← succ_mul]
    rcases h with hnext | hexact
    · have hlast : index + 1 < t.sizeChunks := by omega
      exact ((Layout.lt_ceil hpos _ _).mp (hlast.trans_le hle)).le
    have hwhole : t.torrentSize = t.torrentSize / t.chunkSize * t.chunkSize := by
      rw [mul_comm]
      omega
    rw [hwhole] at hstart ⊢
    exact Nat.mul_le_mul_right _ (Nat.lt_of_mul_lt_mul_right hstart)
  · omega

end Storage

/-- Every chunk of every layout is created of parts that map its bytes in order, unless a range of it cannot be mapped. -/
theorem Storage.createChunkIndex_spans (t : Storage) (maps : ℕ → ℕ → ℕ → Bool) (index : ℕ) (hindex : index < t.sizeChunks) :
    ∃ r, t.createChunkIndex maps index = .ok r ∧
      (∀ parts, r = some parts →
        MappedPart.Spans t.files (index * t.chunkSize) (t.chunkIndexSize index) 0 parts ∧
          ∀ p ∈ parts, maps p.file p.fileOffset p.size = true) ∧
      (r = none → ∃ p : MappedPart, p.Within t.files (index * t.chunkSize) (t.chunkIndexSize index) ∧
        maps p.file p.fileOffset p.size = false) := by
  obtain ⟨r, hr, hcreates⟩ := t.createChunk_creates maps (t.chunkIndexSize_pos index) (t.chunkIndexSize_le hindex)
  refine ⟨r, hr, ?_, ?_⟩
  · rintro parts rfl
    exact hcreates
  · rintro rfl
    exact hcreates

/-- A file of two bytes, an empty one, padding and a file of four bytes, in chunks of four bytes. -/
def mixedStorage : Storage where
  chunkSize := 4
  entries := [(2, false), (0, false), (3, true), (4, false)]
  chunkSize_pos := by decide
  chunkSize_lt := by decide
  torrentSize_lt := by decide

theorem createChunkIndex_spans_mixed : 1 < mixedStorage.sizeChunks ∧
    ∃ r, mixedStorage.createChunkIndex (fun _ offset _ ↦ offset < 3) 1 = .ok r ∧
      (∀ parts, r = some parts →
        MappedPart.Spans mixedStorage.files 4 4 0 parts ∧ ∀ p ∈ parts, decide (p.fileOffset < 3) = true) ∧
      (r = none → ∃ p : MappedPart, p.Within mixedStorage.files 4 4 ∧ decide (p.fileOffset < 3) = false) :=
  ⟨by decide, mixedStorage.createChunkIndex_spans (fun _ offset _ ↦ offset < 3) 1 (by decide)⟩

end LibTorrent
