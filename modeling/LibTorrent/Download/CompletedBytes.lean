import LibTorrent.Data.Bitfield
import LibTorrent.Download.Constructor
import Mathlib.Algebra.Order.BigOperators.Group.Finset
import Mathlib.Algebra.Order.Floor.Div
import Mathlib.Data.Fintype.Fin
import Mathlib.GroupTheory.GroupAction.Ring

namespace LibTorrent

open Finset Lib.Decimal Lib.Outcome Nat

/-- The completed bitfield of `n` chunks: with its memory, or with only the number of chunks that are done. -/
inductive CompletedBitfield (n : ℕ)
  | held (bitfield : Bitfield n)
  | counted (sizeSet : ℕ) (h : sizeSet ≤ n)

namespace CompletedBitfield

variable {n : ℕ}

def sizeSet : CompletedBitfield n → ℕ
  | held b => b.sizeSet
  | counted k _ => k

/-- The chunks that are done. Those that are only counted are the first ones. -/
def chunks : CompletedBitfield n → Finset (Fin n)
  | held b => {i | b.bits i}
  | counted k _ => {i | (i : ℕ) < k}

theorem card_chunks (p : CompletedBitfield n) : #p.chunks = p.sizeSet := by
  cases p with
  | held b => exact b.sizeSet_eq.symm
  | counted k h =>
    change #{i : Fin n | (i : ℕ) < k} = k
    rw [Fin.card_filter_val_lt, min_eq_right h]

end CompletedBitfield

namespace Content

variable {c : Content}

def chunkIndexSize (c : Content) (index : ℕ) : ℕ :=
  if (index + 1) % 2 ^ 32 ≠ c.sizeChunks ∨ c.torrentSize % c.chunkSize = 0 then c.chunkSize
  else c.torrentSize % c.chunkSize

def completedBytes (c : Content) : CompletedBitfield c.sizeChunks → Except TorrentFault ℕ
  | .counted k _ => .ok (if k = c.sizeChunks then c.torrentSize else k * c.chunkSize)
  | .held b =>
    if b.get (c.sizeChunks - 1) = false ∨ c.torrentSize % c.chunkSize = 0 then .ok (b.sizeSet * c.chunkSize)
    else if b.sizeSet = 0 then
      .error (.internalError "FileList::bytes_completed() completed_chunks() == 0.")
    else .ok ((b.sizeSet - 1) * c.chunkSize + c.torrentSize % c.chunkSize)

def leftBytes (c : Content) (p : CompletedBitfield c.sizeChunks) : Except TorrentFault ℕ := do
  let completed ← c.completedBytes p
  let left := (c.torrentSize + 2 ^ 64 - completed) % 2 ^ 64
  if 2 ^ 60 < left then .error (.internalError "FileList::bytes_left() is too large.")
  else if p.sizeSet = c.sizeChunks ∧ left ≠ 0 then
    .error (.internalError "FileList::bytes_left() has an invalid size.")
  else .ok left

def bytesDone (c : Content) (p : CompletedBitfield c.sizeChunks) : ℕ := ∑ i ∈ p.chunks, c.chunkIndexSize i

structure Counted (c : Content) : Prop where
  chunkSize_pos : 0 < c.chunkSize
  torrentSize_pos : 0 < c.torrentSize
  sizeChunks_lt : c.sizeChunks < 2 ^ 32
  sizeChunks_eq : c.sizeChunks = (c.torrentSize + c.chunkSize - 1) / c.chunkSize

namespace Counted

variable (h : c.Counted)
include h

theorem sizeChunks_pos : 0 < c.sizeChunks := by
  rw [h.sizeChunks_eq]
  exact div_pos (by have := h.torrentSize_pos; omega) h.chunkSize_pos

theorem chunkIndexSize_last : c.chunkIndexSize (c.sizeChunks - 1) =
      if c.torrentSize % c.chunkSize = 0 then c.chunkSize else c.torrentSize % c.chunkSize := by
  rw [chunkIndexSize, Nat.sub_add_cancel h.sizeChunks_pos, Nat.mod_eq_of_lt h.sizeChunks_lt]
  simp only [ne_eq, not_true_eq_false, false_or]

theorem size_eq : c.torrentSize = (c.sizeChunks - 1) * c.chunkSize + c.chunkIndexSize (c.sizeChunks - 1) := by
  have hpos := h.sizeChunks_pos
  have hdiv := div_add_mod c.torrentSize c.chunkSize
  have hcs := h.chunkSize_pos
  rw [h.chunkIndexSize_last]
  split_ifs with hmod
  · have hn : c.sizeChunks = c.torrentSize / c.chunkSize := by
      rw [h.sizeChunks_eq]
      refine Nat.div_eq_of_lt_le ?_ ?_
      · rw [Nat.mul_comm]; omega
      · rw [succ_mul, mul_comm]; omega
    rw [Nat.sub_mul, one_mul, Nat.sub_add_cancel (Nat.le_mul_of_pos_left _ hpos), hn, Nat.mul_comm]
    omega
  · have hn : c.sizeChunks = c.torrentSize / c.chunkSize + 1 := by
      rw [h.sizeChunks_eq]
      refine Nat.div_eq_of_lt_le ?_ ?_
      · rw [Nat.succ_mul, Nat.mul_comm]; omega
      · have := mod_lt c.torrentSize hcs
        rw [succ_mul, succ_mul, mul_comm]; omega
    rw [hn, Nat.add_sub_cancel, Nat.mul_comm]
    omega

theorem chunkIndexSize_of_ne {i : Fin c.sizeChunks} (hi : (i : ℕ) ≠ c.sizeChunks - 1) :
    c.chunkIndexSize i = c.chunkSize := by
  have := h.sizeChunks_lt
  refine if_pos (.inl ?_)
  omega

theorem sum_chunkIndexSize (s : Finset (Fin c.sizeChunks)) : ∑ i ∈ s, c.chunkIndexSize i =
      if ∃ i ∈ s, (i : ℕ) = c.sizeChunks - 1 then (#s - 1) * c.chunkSize + c.chunkIndexSize (c.sizeChunks - 1)
      else #s * c.chunkSize := by
  have hconst (t : Finset (Fin c.sizeChunks)) (ht : ∀ i ∈ t, (i : ℕ) ≠ c.sizeChunks - 1) :
      ∑ i ∈ t, c.chunkIndexSize i = #t * c.chunkSize :=
    sum_const_nat fun i hi ↦ h.chunkIndexSize_of_ne (ht i hi)
  split_ifs with hlast
  · obtain ⟨i, hi, heq⟩ := hlast
    rw [← sum_erase_add _ _ hi, hconst (s.erase i) fun j hj hj' ↦ ?_, card_erase_of_mem hi, heq]
    exact ne_of_mem_erase hj (Fin.ext (hj'.trans heq.symm))
  · exact hconst s fun i hi heq ↦ hlast ⟨i, hi, heq⟩

theorem sum_univ : ∑ i : Fin c.sizeChunks, c.chunkIndexSize i = c.torrentSize := by
  have hpos := h.sizeChunks_pos
  have hlast : ∃ i ∈ (univ : Finset (Fin c.sizeChunks)), (i : ℕ) = c.sizeChunks - 1 :=
    ⟨⟨c.sizeChunks - 1, by omega⟩, mem_univ _, rfl⟩
  rw [h.sum_chunkIndexSize, if_pos hlast, Finset.card_univ, Fintype.card_fin]
  exact h.size_eq.symm

theorem bytesDone_le (p : CompletedBitfield c.sizeChunks) : c.bytesDone p ≤ c.torrentSize :=
  h.sum_univ ▸ sum_le_sum_of_subset (subset_univ _)

theorem completedBytes_eq (p : CompletedBitfield c.sizeChunks) : c.completedBytes p = .ok (c.bytesDone p) := by
  have hpos := h.sizeChunks_pos
  have hcard := p.card_chunks
  cases p with
  | counted k hk =>
    rw [completedBytes, bytesDone]
    split_ifs with hall
    · have huniv : (CompletedBitfield.counted k hk).chunks = univ := by
        rw [← card_eq_iff_eq_univ, hcard, Fintype.card_fin]
        exact hall
      rw [huniv, h.sum_univ]
    rw [h.sum_chunkIndexSize, if_neg, hcard]
    · rfl
    rintro ⟨i, hi, heq⟩
    have : (i : ℕ) < k := (mem_filter.mp hi).2
    omega
  | held b =>
    have hget : b.get (c.sizeChunks - 1) = b.bits ⟨c.sizeChunks - 1, by omega⟩ := dif_pos (by omega)
    have hlast : (∃ i ∈ (CompletedBitfield.held b).chunks, (i : ℕ) = c.sizeChunks - 1) ↔ b.get (c.sizeChunks - 1) = true := by
      rw [hget]
      constructor
      · rintro ⟨i, hi, heq⟩
        have hbit : b.bits i = true := (mem_filter.mp hi).2
        rwa [show i = ⟨c.sizeChunks - 1, by omega⟩ from Fin.ext heq] at hbit
      · exact fun hbit ↦ ⟨_, mem_filter.mpr ⟨mem_univ _, hbit⟩, rfl⟩
    rw [completedBytes, bytesDone, h.sum_chunkIndexSize, hcard, CompletedBitfield.sizeSet]
    cases hbit : b.get (c.sizeChunks - 1) with
    | false => rw [if_pos (.inl rfl), if_neg fun hex ↦ Bool.false_ne_true (hbit.symm.trans (hlast.mp hex))]
    | true =>
      have hex := hlast.mpr hbit
      have hne : b.sizeSet ≠ 0 := by
        obtain ⟨i, hi, -⟩ := hex
        rw [CompletedBitfield.sizeSet] at hcard
        exact hcard ▸ card_ne_zero_of_mem hi
      rw [if_pos hex, h.chunkIndexSize_last]
      by_cases hmod : c.torrentSize % c.chunkSize = 0
      · rw [if_pos (.inr hmod), if_pos hmod, Nat.sub_mul, one_mul,
          Nat.sub_add_cancel (Nat.le_mul_of_pos_left _ (Nat.pos_of_ne_zero hne))]
      · rw [if_neg (not_or.mpr ⟨Bool.noConfusion, hmod⟩), if_neg hne, if_neg hmod]

theorem leftBytes_eq (hsize : c.torrentSize ≤ 2 ^ 60) (p : CompletedBitfield c.sizeChunks) :
    c.leftBytes p = .ok (c.torrentSize - c.bytesDone p) := by
  have hle := h.bytesDone_le p
  have hleft : (c.torrentSize + 2 ^ 64 - c.bytesDone p) % 2 ^ 64 = c.torrentSize - c.bytesDone p := by
    omega
  have hdone : p.sizeSet = c.sizeChunks → c.bytesDone p = c.torrentSize := by
    intro hall
    have huniv : p.chunks = univ := by
      rw [← card_eq_iff_eq_univ, p.card_chunks, Fintype.card_fin, hall]
    rw [bytesDone, huniv, h.sum_univ]
  rw [leftBytes, h.completedBytes_eq, ok_bind, hleft, if_neg (by omega), if_neg]
  rintro ⟨hall, hne⟩
  omega

end Counted

structure Exact (c : Content) : Prop where
  sizeChunks : c.sizeChunks = c.torrentSize ⌈/⌉ c.chunkSize
  completed : ∀ p, c.completedBytes p = .ok (c.bytesDone p)
  completed_le : ∀ p, c.bytesDone p ≤ c.torrentSize
  left : ∀ p, c.leftBytes p = .ok (c.torrentSize - c.bytesDone p)

theorem Filled.counted (h : c.Filled) (hpos : 0 < c.torrentSize)
    (hcount : (c.torrentSize + c.chunkSize - 1) / c.chunkSize < 2 ^ 32) : c.Counted where
  chunkSize_pos := h.chunkSize_pos
  torrentSize_pos := hpos
  sizeChunks_lt := by rw [h.sizeChunks_eq]; exact mod_lt _ (by decide)
  sizeChunks_eq := by rw [h.sizeChunks_eq, mod_eq_of_lt hcount]

theorem Filled.exact_iff (h : c.Filled) (hpos : 0 < c.torrentSize) :
    c.Exact ↔ (c.torrentSize + c.chunkSize - 1) / c.chunkSize < 2 ^ 32 ∧ c.torrentSize ≤ 2 ^ 60 := by
  constructor
  · intro hexact
    have hcount : (c.torrentSize + c.chunkSize - 1) / c.chunkSize < 2 ^ 32 := by
      have hsize := hexact.sizeChunks
      rw [h.sizeChunks_eq, ceilDiv_eq_add_pred_div] at hsize
      rw [← hsize]
      exact mod_lt _ (by decide)
    refine ⟨hcount, le_of_not_gt fun hlarge ↦ ?_⟩
    -- nothing is done, so that everything is left
    have hcounted := h.counted hpos hcount
    have hzero : c.bytesDone (.counted 0 (zero_le _)) = 0 := by
      have hnone : (CompletedBitfield.counted 0 (zero_le c.sizeChunks)).chunks = ∅ :=
        card_eq_zero.mp (CompletedBitfield.card_chunks _)
      rw [bytesDone, hnone, sum_empty]
    have hleft := hexact.left (.counted 0 (zero_le _))
    have hmod : (c.torrentSize + 2 ^ 64 - 0) % 2 ^ 64 = c.torrentSize := by
      have := h.torrentSize_lt
      omega
    rw [leftBytes, hcounted.completedBytes_eq, hzero, ok_bind, hmod, if_pos hlarge] at hleft
    exact nomatch hleft
  · rintro ⟨hcount, hsize⟩
    have hcounted := h.counted hpos hcount
    refine ⟨?_, hcounted.completedBytes_eq, hcounted.bytesDone_le, hcounted.leftBytes_eq hsize⟩
    rw [hcounted.sizeChunks_eq, ceilDiv_eq_add_pred_div]

end Content

namespace Construction

/-- The counts of a torrent that is accepted are exact as long as they fit: the number of chunks in 32 bits, and the
size in what `left_bytes` allows. The hashes are there for all chunks that are counted. -/
theorem parseInfo_exact (unordered : Bool) (b : Object) (d : Construction) :
    Yields (parseInfo unordered b d) fun d' ↦
      20 * d'.fileList.sizeChunks ≤ d'.completeHash.length ∧
      (d'.fileList.Exact ↔
        (d'.fileList.torrentSize + d'.fileList.chunkSize - 1) / d'.fileList.chunkSize < 2 ^ 32 ∧
          d'.fileList.torrentSize ≤ 2 ^ 60) := by
  refine (yields_parseInfo unordered b d).mono ?_
  rintro d' ⟨-, hfilled, -, hpos, hhash⟩
  exact ⟨by omega, hfilled.exact_iff (pos_of_ne_zero hpos)⟩

def hollowInfo : Object :=
  .map 0 [(ascii "length", .value 0 4402341478400), (ascii "name", .string 0 (ascii "a")),
    (ascii "piece length", .value 0 1025), (ascii "pieces", .string 0 [])]

/-- The number of chunks is cut off to nothing, and so no hash is missing. -/
theorem parseInfo_hollow : (parseInfo false hollowInfo fresh).map (fun d ↦
      (d.fileList.torrentSize, d.fileList.chunkSize, d.fileList.sizeChunks,
        d.fileList.torrentSize ⌈/⌉ d.fileList.chunkSize)) =
      .ok (2 ^ 32 * 1025, 1025, 0, 2 ^ 32) := by
  decide +kernel

end Construction

end LibTorrent
