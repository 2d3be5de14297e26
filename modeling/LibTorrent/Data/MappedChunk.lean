import LibTorrent.Lib.Decimal
import LibTorrent.Lib.Memory
import LibTorrent.Lib.Outcome

namespace LibTorrent

open Lib.Decimal Lib.Memory

structure ChunkPart where
  position : ℕ
  begin : ℕ
  size : ℕ
  deriving DecidableEq

namespace ChunkPart

def isContained (p : ℕ) (part : ChunkPart) : Bool := part.position ≤ p ∧ p < part.position + part.size

def Apart (p q : ChunkPart) : Prop := p.begin + p.size ≤ q.begin ∨ q.begin + q.size ≤ p.begin

instance (p q : ChunkPart) : Decidable (Apart p q) := inferInstanceAs (Decidable (_ ∨ _))

def Follows : ℕ → List ChunkPart → ℕ → Prop
  | a, [], b => a = b
  | a, p :: parts, b => p.position = a ∧ Follows (a + p.size) parts b

theorem Follows.append (h : Follows a parts b) (p : ChunkPart) (hp : p.position = b) :
    Follows a (parts ++ [p]) (b + p.size) := by
  induction parts generalizing a with
  | nil =>
    obtain rfl : a = b := h
    exact ⟨hp, rfl⟩
  | cons q parts ih => exact ⟨h.1, ih h.2⟩

end ChunkPart

open ChunkPart

structure MappedChunk where
  parts : List ChunkPart
  chunkSize : ℕ
  follows : Follows 0 parts chunkSize
  chunkSize_lt : chunkSize < 2 ^ 32
  apart : parts.Pairwise Apart

namespace MappedChunk

def empty : MappedChunk := ⟨[], 0, rfl, by decide, .nil⟩

def pushBack (begin size : ℕ) (c : MappedChunk) (hsize : c.chunkSize + size < 2 ^ 32)
    (hapart : ∀ p ∈ c.parts, Apart p ⟨c.chunkSize, begin, size⟩) : MappedChunk where
  parts := c.parts ++ [⟨c.chunkSize, begin, size⟩]
  chunkSize := c.chunkSize + size
  follows := c.follows.append _ rfl
  chunkSize_lt := hsize
  apart := List.pairwise_append.mpr ⟨c.apart, List.pairwise_singleton _ _, fun p hp q hq ↦ by
    rw [List.mem_singleton.mp hq]
    exact hapart p hp⟩

/-- `at_position`: the parts from the one on that holds the position. -/
def atPosition (pos : ℕ) (c : MappedChunk) : Except String (List ChunkPart) :=
  if c.chunkSize ≤ pos then .error "Chunk::at_position(...) tried to get Chunk position out of range."
  else
    match c.parts.dropWhile fun p ↦ !p.isContained pos with
    | [] => .error "Chunk::at_position(...) might be mangled, at_position failed horribly"
    | part :: rest =>
      if part.size = 0 then .error "Chunk::at_position(...) tried to return a node with length 0"
      else .ok (part :: rest)

def atMemory (offset : ℕ) : List ChunkPart → Except String (ℕ × ℕ)
  | [] => .error "Chunk::at_memory(...) reached end."
  | part :: _ =>
    if offset < part.position ∨ part.position + part.size ≤ offset then .error "Chunk::at_memory(...) out of range."
    else .ok (part.begin + (offset - part.position), part.size - (offset - part.position))

end MappedChunk

/-- `ChunkIterator`. The iterator is the list of the parts from its own on. -/
structure ChunkIterator where
  parts : List ChunkPart
  first : ℕ
  last : ℕ

namespace ChunkIterator

def create (first last : ℕ) (c : MappedChunk) : Except String ChunkIterator := do
  let parts ← c.atPosition first
  .ok ⟨parts, first, last⟩

def data (it : ChunkIterator) : Except String (ℕ × ℕ) := do
  let (a, n) ← MappedChunk.atMemory it.first it.parts
  .ok (a, min n (it.last - it.first))

def next (it : ChunkIterator) : Bool × ChunkIterator :=
  match it.parts with
  | [] => (false, it)
  | part :: rest =>
    let first := part.position + part.size
    let parts := rest.dropWhile fun p ↦ p.size = 0
    (!parts.isEmpty && first < it.last, ⟨parts, first, it.last⟩)

def forward (length : ℕ) (it : ChunkIterator) : Bool × ChunkIterator :=
  let first := (it.first + length) % 2 ^ 32
  if it.last ≤ first then (false, { it with first := first })
  else
    let parts := it.parts.dropWhile fun p ↦ p.position + p.size ≤ first
    (!parts.isEmpty, { it with first := first, parts := parts })

variable {σ : Type}

/-- A loop that does something with each `data()` while there is a `next()`, unless it ends itself. Behind the last part
`data()` finds the end. -/
def whileNext (body : σ → ℕ → ℕ → Bool × σ) : ℕ → ChunkIterator → σ → Except String σ
  | 0, _, _ => .error "Chunk::at_memory(...) reached end."
  | fuel + 1, it, s => do
    let (a, n) ← it.data
    let (go, s) := body s a n
    if !go then .ok s
    else
      let (more, it) := it.next
      if more then whileNext body fuel it s else .ok s

/-- A loop that takes some of the bytes of each `data()` and goes forward by as many, while it can. -/
def pull (m : ℕ → UInt8) : List ℕ → ChunkIterator → Except String (List Bytes × Bool × ChunkIterator)
  | [], it => .ok ([], true, it)
  | k :: ks, it => do
    let (a, n) ← it.data
    let (more, it) := it.forward (min k n)
    if more then do
      let (segments, more, it) ← pull m ks it
      .ok (load m a (min k n) :: segments, more, it)
    else .ok ([load m a (min k n)], false, it)

end ChunkIterator

namespace MappedChunk

open ChunkIterator

def toBuffer (m : ℕ → UInt8) (position length : ℕ) (c : MappedChunk) : Except String Bytes :=
  if c.chunkSize < (position + length) % 2 ^ 32 then
    .error "Chunk::to_buffer(...) position + length > m_chunkSize."
  else if length = 0 then .ok []
  else do
    let it ← ChunkIterator.create position ((position + length) % 2 ^ 32) c
    whileNext (fun s a n ↦ (true, s ++ load m a n)) it.parts.length it []

def fromBuffer (buffer : Bytes) (m : ℕ → UInt8) (position length : ℕ) (c : MappedChunk) : Except String (ℕ → UInt8) :=
  if c.chunkSize < (position + length) % 2 ^ 32 then
    .error "Chunk::from_buffer(...) position + length > m_chunkSize."
  else if length = 0 then .ok m
  else do
    let it ← ChunkIterator.create position ((position + length) % 2 ^ 32) c
    let (m, _) ← whileNext (fun (m, b) a n ↦ (true, store m a (b.take n), b.drop n)) it.parts.length it (m, buffer)
    .ok m

def compareBuffer (buffer : Bytes) (m : ℕ → UInt8) (position length : ℕ) (c : MappedChunk) : Except String Bool :=
  if c.chunkSize < (position + length) % 2 ^ 32 then
    .error "Chunk::compare_buffer(...) position + length > m_chunkSize."
  else if length = 0 then .ok true
  else do
    let it ← ChunkIterator.create position ((position + length) % 2 ^ 32) c
    let (same, _) ← whileNext (fun (_, b) a n ↦ if load m a n ≠ b.take n then (false, false, b) else (true, true, b.drop n))
      it.parts.length it (true, buffer)
    .ok same

def flatParts (m : ℕ → UInt8) (parts : List ChunkPart) : Bytes := parts.flatMap fun p ↦ load m p.begin p.size

def flat (m : ℕ → UInt8) (c : MappedChunk) : Bytes := flatParts m c.parts

end MappedChunk

open List MappedChunk

variable {m : ℕ → UInt8} {parts rest : List ChunkPart} {p : ChunkPart} {a b first last : ℕ}

theorem flatParts_cons : flatParts m (p :: parts) = load m p.begin p.size ++ flatParts m parts := flatMap_cons

theorem ChunkPart.Follows.length (h : Follows a parts b) : a + (flatParts m parts).length = b := by
  induction parts generalizing a with
  | nil => exact h
  | cons p parts ih =>
    have hrest := ih h.2
    rw [flatParts_cons, length_append, length_load]
    omega

theorem ChunkPart.Follows.le_position (h : Follows a parts b) (hp : p ∈ parts) : a ≤ p.position := by
  induction parts generalizing a with
  | nil => exact absurd hp not_mem_nil
  | cons q parts ih =>
    rcases mem_cons.mp hp with rfl | hp
    · exact h.1.ge
    · exact (Nat.le_add_right a q.size).trans (ih h.2 hp)

namespace MappedChunk

/-- The pieces of memory that hold a range of the parts, each as an address and a length. -/
def segments : List ChunkPart → ℕ → ℕ → List (ℕ × ℕ)
  | [], _, _ => []
  | p :: parts, first, last =>
    if p.position + p.size ≤ first then segments parts first last
    else if last ≤ first then []
    else (p.begin + (first - p.position), min (p.position + p.size - first) (last - first)) ::
      segments parts (p.position + p.size) last

theorem segments_eq_nil (h : last ≤ first) : segments parts first last = [] := by
  induction parts with
  | nil => rfl
  | cons p parts ih =>
    rw [segments]
    split_ifs with hpass
    · exact ih
    · rfl

theorem flatMap_segments (h : Follows a parts b) (hfirst : a ≤ first) (hle : first ≤ last) (hlast : last ≤ b) :
    ((segments parts first last).flatMap fun s ↦ load m s.1 s.2) =
      ((flatParts m parts).drop (first - a)).take (last - first) := by
  induction parts generalizing a first with
  | nil =>
    obtain rfl : a = b := h
    have hzero : last - first = 0 := by omega
    rw [hzero, take_zero]
    rfl
  | cons p parts ih =>
    obtain ⟨hp, hrest⟩ := h
    rw [segments, flatParts_cons, drop_append, take_append, length_load]
    split_ifs with hpass hend
    · have hnil : (load m p.begin p.size).drop (first - a) = [] := drop_eq_nil_of_le (by rw [length_load]; omega)
      have hskip : first - a - p.size = first - (a + p.size) := by omega
      rw [ih hrest (by omega) hle, hnil, hskip, take_nil, nil_append, length_nil, Nat.sub_zero]
    · have hzero : last - first = 0 := by omega
      simp [hzero]
    have hdrop : (load m p.begin p.size).drop (first - a) = load m (p.begin + (first - p.position)) (a + p.size - first) := by
      rw [drop_load (by omega), hp]
      congr 1
      omega
    have hskip : first - a - p.size = 0 := by omega
    rw [flatMap_cons, hdrop, hskip, drop_zero, length_load, hp]
    by_cases hin : last ≤ a + p.size
    · have hmin : min (a + p.size - first) (last - first) = last - first := by omega
      have hnone : last - first - (a + p.size - first) = 0 := by omega
      rw [segments_eq_nil hin, flatMap_nil, hnone, take_zero, hmin, take_load (by omega)]
    have hmin : min (a + p.size - first) (last - first) = a + p.size - first := by omega
    have hmore : last - first - (a + p.size - first) = last - (a + p.size) := by omega
    have hall : (load m (p.begin + (first - a)) (a + p.size - first)).take (last - first) =
        load m (p.begin + (first - a)) (a + p.size - first) := take_of_length_le (by rw [length_load]; omega)
    rw [ih hrest le_rfl (by omega), Nat.sub_self, drop_zero, hmin, hmore, hall]

def Elsewhere (parts : List ChunkPart) (i : ℕ) : Prop := ∀ p ∈ parts, i < p.begin ∨ p.begin + p.size ≤ i

def storeSegments : List (ℕ × ℕ) → (ℕ → UInt8) → Bytes → ℕ → UInt8
  | [], m, _ => m
  | s :: l, m, buffer => storeSegments l (store m s.1 (buffer.take s.2)) (buffer.drop s.2)

theorem store_of_lt_or_le {s : Bytes} (h : i < a ∨ a + s.length ≤ i) : store m a s i = m i := by
  unfold store
  split_ifs with hle
  · rw [getD_eq_getElem?_getD, List.getElem?_eq_none (by omega)]
    rfl
  · rfl

theorem storeSegments_elsewhere {buffer : Bytes} (h : Follows a parts b) (hfirst : a ≤ first)
    (hi : Elsewhere parts i) : storeSegments (segments parts first last) m buffer i = m i := by
  induction parts generalizing a first m buffer with
  | nil => rfl
  | cons p parts ih =>
    obtain ⟨hp, hrest⟩ := h
    have hi' : Elsewhere parts i := fun q hq ↦ hi q (mem_cons_of_mem p hq)
    rw [segments]
    split_ifs with hpass hend
    · exact ih hrest (by omega) hi'
    · rfl
    rw [storeSegments, ih hrest (by omega) hi']
    refine store_of_lt_or_le ?_
    have hlen := length_take_le (min (p.position + p.size - first) (last - first)) buffer
    have hpi := hi p mem_cons_self
    dsimp only
    omega

theorem flatParts_congr {m' : ℕ → UInt8} (h : ∀ p ∈ parts, load m' p.begin p.size = load m p.begin p.size) :
    flatParts m' parts = flatParts m parts := by
  induction parts with
  | nil => rfl
  | cons p parts ih =>
    rw [flatParts_cons, flatParts_cons, h p mem_cons_self, ih fun q hq ↦ h q (mem_cons_of_mem p hq)]

theorem flatParts_storeSegments {buffer : Bytes} (h : Follows a parts b) (hapart : parts.Pairwise Apart)
    (hfirst : a ≤ first) (hle : first ≤ last) (hlast : last ≤ b) (hbuffer : last - first ≤ buffer.length) :
    flatParts (storeSegments (segments parts first last) m buffer) parts =
      splice (flatParts m parts) (first - a) (buffer.take (last - first)) := by
  induction parts generalizing a first m buffer with
  | nil =>
    obtain rfl : a = b := h
    have hzero : last - first = 0 := by omega
    rw [hzero, take_zero, splice_nil]
    rfl
  | cons p parts ih =>
    obtain ⟨hp, hrest⟩ := h
    obtain ⟨hpa, hapart'⟩ := pairwise_cons.mp hapart
    have hkeep : ∀ {m' buffer' first'}, a + p.size ≤ first' →
        load (storeSegments (segments parts first' last) m' buffer') p.begin p.size = load m' p.begin p.size := by
      refine fun hf ↦ load_congr fun i hi ↦ storeSegments_elsewhere hrest hf fun q hq ↦ ?_
      have hpq := hpa q hq
      unfold Apart at hpq
      omega
    rw [segments]
    split_ifs with hpass hend
    · have hskip : first - a - p.size = first - (a + p.size) := by omega
      rw [flatParts_cons, flatParts_cons, hkeep (by omega), ih hrest hapart' (by omega) hle hbuffer,
        splice_append_right (by rw [length_load]; omega), length_load, hskip]
    · have hzero : last - first = 0 := by omega
      rw [hzero, take_zero, splice_nil]
      rfl
    generalize hn : min (p.position + p.size - first) (last - first) = n
    have hwritten : (buffer.take n).length = n := by
      rw [length_take]
      omega
    have hbegin : p.begin + (first - p.position) = p.begin + (first - a) := by rw [hp]
    have hhead : load (store m (p.begin + (first - p.position)) (buffer.take n)) p.begin p.size =
        splice (load m p.begin p.size) (first - a) (buffer.take n) := by
      rw [hbegin]
      exact load_store_within (by omega)
    have hothers : flatParts (store m (p.begin + (first - p.position)) (buffer.take n)) parts = flatParts m parts := by
      refine flatParts_congr fun q hq ↦ load_store_of_disjoint ?_
      have hpq := hpa q hq
      unfold Apart at hpq
      omega
    rw [storeSegments, flatParts_cons, flatParts_cons, hkeep (by omega), hhead]
    by_cases hin : last ≤ p.position + p.size
    · have hall : last - first = n := by omega
      rw [segments_eq_nil hin, storeSegments, hothers, hall, splice_append_left (by rw [length_load]; omega)]
    have hrestb : last - (p.position + p.size) ≤ (buffer.drop n).length := by
      rw [length_drop]
      omega
    have hsplit : buffer.take (last - first) = buffer.take n ++ (buffer.drop n).take (last - (p.position + p.size)) := by
      rw [← take_add]
      congr 1
      omega
    rw [ih hrest hapart' (by omega) (by omega) hrestb, hothers, hsplit,
      splice_append (by rw [length_load]; omega), hp, Nat.sub_self]

end MappedChunk

end LibTorrent
