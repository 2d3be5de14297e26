import LibTorrent.Data.Completed
import Mathlib.Order.Interval.Finset.Nat

namespace LibTorrent

open Bitfield File FileList Finset Layout Lib.Outcome Nat

def File.Overlaps (chunkSize : ℕ) (f : File) (c : ℕ) : Prop :=
  ∃ p, f.offset ≤ p ∧ p < f.offset + f.sizeBytes ∧ p / chunkSize = c

def Bitfield.IsSet {n : ℕ} (b : Bitfield n) (c : ℕ) : Prop := ∃ h : c < n, b.bits ⟨c, h⟩

def File.setInRange {n : ℕ} (b : Bitfield n) (f : File) : ℕ :=
  #{i : Fin n | f.rangeFirst ≤ i ∧ i < f.rangeSecond ∧ b.bits i}

/-- The file counts the chunks set in its range, and is done when all its chunks are set. -/
structure File.Tallied {n : ℕ} (chunkSize : ℕ) (b : Bitfield n) (f : File) : Prop where
  completed_eq : f.completed = f.setInRange b
  completed_iff : f.completed = f.sizeChunks ↔ ∀ c, f.Overlaps chunkSize c → b.IsSet c

theorem File.sizeChunks_setCompletedProtected (f : File) (c : ℕ) :
    (f.setCompletedProtected c).sizeChunks = f.sizeChunks := by
  rw [sizeChunks, setCompletedProtected, sizeChunks]

variable {j : ℕ} {f : File}

namespace Layout

variable {t : Layout}

def chunkCount (t : Layout) : ℕ := (t.torrentSize + t.chunkSize - 1) / t.chunkSize

def file (t : Layout) (j : ℕ) (padding : Bool) : File :=
  setRange t.chunkSize ⟨t.offset j, t.size j, padding, 0, 0, 0⟩

theorem split_eq (hj : j < t.entries.length) :
    ∃ padding, (split t.chunkSize 0 t.entries)[j]? = some (t.file j padding) := by
  refine ⟨(t.entries.get ⟨j, hj⟩).2, ?_⟩
  rw [split_getElem?, List.getElem?_eq_getElem hj]
  simp [file, size, offset, hj]

variable {cs x i : ℕ}

theorem lt_ceil (hcs : 0 < cs) (i x : ℕ) : i < (x + cs - 1) / cs ↔ i * cs < x := by
  rw [lt_iff_add_one_le, le_div_iff_mul_le hcs, succ_mul]
  omega

theorem lt_floor (hcs : 0 < cs) (i x : ℕ) : i < x / cs ↔ (i + 1) * cs ≤ x := by
  rw [lt_iff_add_one_le, le_div_iff_mul_le hcs]

/-- The files start at offsets that give no chunk to two counts: a file that has bytes before
it has bytes of its own and does not start with a chunk. -/
def Clean (t : Layout) : Prop :=
  t.chunkCount < 2 ^ 32 ∧ ∀ j < t.entries.length, 0 < t.offset j → 0 < t.size j ∧ ¬ t.chunkSize ∣ t.offset j

theorem ceil_le (hx : x ≤ t.torrentSize) : (x + t.chunkSize - 1) / t.chunkSize ≤ t.chunkCount :=
  Nat.div_le_div_right (by omega)

theorem floor_le (hcs : 0 < t.chunkSize) (hx : x ≤ t.torrentSize) : x / t.chunkSize ≤ t.chunkCount :=
  Nat.div_le_div_right (by omega)

section Ranges

variable (hcs : 0 < t.chunkSize) (hN : t.chunkCount < 2 ^ 32)

include hcs hN

theorem rangeFirst_file (j : ℕ) (padding : Bool) : (t.file j padding).rangeFirst = t.offset j / t.chunkSize := by
  have h := floor_le hcs (t.offset_le j)
  have hmod : t.offset j / t.chunkSize % 2 ^ 32 = t.offset j / t.chunkSize := mod_eq_of_lt (by omega)
  rw [file, setRange, if_neg hcs.ne']
  split_ifs <;> exact hmod

theorem rangeSecond_file (j : ℕ) (padding : Bool) : (t.file j padding).rangeSecond =
    if t.size j = 0 then t.offset j / t.chunkSize else (t.offset (j + 1) + t.chunkSize - 1) / t.chunkSize := by
  have h₁ := floor_le hcs (t.offset_le j)
  have h₂ := ceil_le (t.offset_le (j + 1))
  rw [file, setRange, if_neg hcs.ne']
  dsimp only
  split_ifs with hs
  · exact mod_eq_of_lt (by omega)
  · rw [← offset_succ]
    exact mod_eq_of_lt (by omega)

theorem second_eq (hj : j < t.entries.length) : t.second j =
    if t.size j = 0 then t.offset j / t.chunkSize else (t.offset (j + 1) + t.chunkSize - 1) / t.chunkSize := by
  obtain ⟨padding, h⟩ := split_eq hj
  rw [← rangeSecond_file hcs hN j padding, second, List.getD_eq_getElem?_getD, List.getElem?_map, h]
  rfl

theorem lt_second (hj : j < t.entries.length) (i : ℕ) : i < t.second j ↔
    if t.size j = 0 then (i + 1) * t.chunkSize ≤ t.offset j else i * t.chunkSize < t.offset (j + 1) := by
  rw [second_eq hcs hN hj]
  split_ifs
  · exact lt_floor hcs i _
  · exact lt_ceil hcs i _

theorem hit_of_mem (hj : j < t.entries.length) (hfirst : t.offset j < (i + 1) * t.chunkSize)
    (hsecond : i < t.second j) : Hit t.second i j := by
  refine ⟨⟨j, le_rfl, hsecond⟩, fun m hm ↦ ?_⟩
  by_contra hlt
  have h := (lt_second hcs hN (hm.trans hj) (i + 1)).mp (not_le.mp hlt)
  have hm₁ : t.offset m ≤ t.offset j := offset_mono hm.le
  have hm₂ : t.offset (m + 1) ≤ t.offset j := offset_mono hm
  split_ifs at h
  · rw [succ_mul] at h
    omega
  · omega

end Ranges

theorem Clean.mem_of_hit (hcs : 0 < t.chunkSize) (h : t.Clean) (hj : j < t.entries.length)
    (hit : Hit t.second i j) : t.offset j < (i + 1) * t.chunkSize ∧ i < t.second j := by
  obtain ⟨hN, hclean⟩ := h
  obtain ⟨⟨m, hmj, hm⟩, hlow⟩ := hit
  have hpos : 0 < (i + 1) * t.chunkSize := Nat.mul_pos (Nat.succ_pos i) hcs
  have hfirst : t.offset j < (i + 1) * t.chunkSize := by
    rcases Nat.eq_zero_or_pos (t.offset j) with h0 | h0
    · omega
    obtain ⟨k, rfl⟩ : ∃ k, j = k + 1 := ⟨j - 1, by cases j <;> simp_all⟩
    have hk : t.size k ≠ 0 := fun hz ↦ by
      rw [offset_succ, hz] at h0
      exact absurd (hclean k (by omega) (by omega)).1 (by omega)
    have hle := hlow k (Nat.lt_succ_self k)
    rw [← not_lt, lt_second hcs hN (by omega), if_neg hk, not_lt] at hle
    refine lt_of_le_of_ne hle fun heq ↦ ?_
    exact (hclean (k + 1) hj h0).2 ⟨i + 1, by rw [heq, Nat.mul_comm]⟩
  refine ⟨hfirst, ?_⟩
  rcases Nat.lt_or_eq_of_le hmj with hlt | rfl
  · rw [lt_second hcs hN (hlt.trans hj)] at hm
    have hsize : t.size m ≠ 0 := fun hz ↦ by
      rw [if_pos hz] at hm
      exact absurd (hclean m (hlt.trans hj) (by omega)).1 (by omega)
    rw [if_neg hsize] at hm
    have hstart : t.offset (m + 1) ≤ t.offset j := offset_mono hlt
    have hown := (hclean j hj (by omega)).1
    rw [lt_second hcs hN hj, if_neg hown.ne', offset_succ]
    omega
  · exact hm

theorem exists_ends (h : 0 < t.offset j) : ∃ p < j, t.size p ≠ 0 ∧ t.offset (p + 1) = t.offset j := by
  induction j with
  | zero => simp at h
  | succ j ih =>
    by_cases hs : t.size j = 0
    · rw [offset_succ, hs, add_zero] at h ⊢
      obtain ⟨p, hp, hsize, hend⟩ := ih h
      exact ⟨p, hp.trans (lt_succ_self j), hsize, hend⟩
    · exact ⟨j, lt_succ_self j, hs, rfl⟩

theorem exists_stray_hit (hcs : 0 < t.chunkSize) (hN : t.chunkCount < 2 ^ 32) (hj : j < t.entries.length)
    (h0 : 0 < t.offset j) (hbad : t.size j = 0 ∨ t.chunkSize ∣ t.offset j) :
    ∃ i < t.chunkCount, Hit t.second i j ∧ ¬ (t.offset j < (i + 1) * t.chunkSize ∧ i < t.second j) := by
  obtain ⟨p, hp, hsize, hend⟩ := exists_ends h0
  have hpl : p < t.entries.length := hp.trans hj
  have hsecond : t.second p = (t.offset j + t.chunkSize - 1) / t.chunkSize := by
    rw [second_eq hcs hN hpl, if_neg hsize, hend]
  have hpos : 0 < t.second p := by
    rw [hsecond, lt_ceil hcs]
    omega
  have hle : t.second p ≤ t.chunkCount := hsecond ▸ ceil_le (t.offset_le j)
  refine ⟨t.second p - 1, by omega, ⟨⟨p, hp.le, by omega⟩, fun m hm ↦ ?_⟩, ?_⟩
  · rw [Nat.sub_add_cancel hpos, hsecond, second_eq hcs hN (hm.trans hj)]
    have hm₁ : t.offset m ≤ t.offset j := offset_mono hm.le
    have hm₂ : t.offset (m + 1) ≤ t.offset j := offset_mono hm
    split_ifs
    · exact Nat.div_le_div_right (by omega)
    · exact Nat.div_le_div_right (by omega)
  rintro ⟨hfirst, hlt⟩
  rw [Nat.sub_add_cancel hpos] at hfirst
  rcases hbad with hz | ⟨q, hq⟩
  · rw [lt_second hcs hN hj, if_pos hz, Nat.sub_add_cancel hpos] at hlt
    omega
  have hceil : t.second p = q := by
    rw [hsecond, hq]
    apply le_antisymm
    · apply Nat.le_of_lt_succ
      rw [Nat.div_lt_iff_lt_mul hcs, Nat.succ_mul, Nat.mul_comm]
      omega
    · rw [Nat.le_div_iff_mul_le hcs, Nat.mul_comm]
      omega
  rw [hceil, hq, Nat.mul_comm] at hfirst
  exact lt_irrefl _ hfirst

theorem offset_length (t : Layout) : t.offset t.entries.length = t.torrentSize := by
  rw [offset, torrentSize, List.take_of_length_le (by simp)]

theorem exists_lt_second (hcs : 0 < t.chunkSize) (hN : t.chunkCount < 2 ^ 32) (hi : i < t.sizeChunks) :
    ∃ m, i < t.second m := by
  have htotal := t.offset_length
  have hcount : t.sizeChunks = t.chunkCount := mod_eq_of_lt hN
  rw [hcount, chunkCount, lt_ceil hcs, ← htotal] at hi
  obtain ⟨p, hp, hsize, hend⟩ := exists_ends (t := t) (j := t.entries.length) (by omega)
  refine ⟨p, ?_⟩
  rw [lt_second hcs hN hp, if_neg hsize, hend]
  exact hi

theorem overlaps_iff (hcs : 0 < t.chunkSize) (hN : t.chunkCount < 2 ^ 32) (hj : j < t.entries.length)
    (hoffset : f.offset = t.offset j) (hsize : f.sizeBytes = t.size j) (c : ℕ) :
    f.Overlaps t.chunkSize c ↔ t.offset j / t.chunkSize ≤ c ∧ c < t.second j := by
  rw [File.Overlaps, hoffset, hsize, ← offset_succ, lt_second hcs hN hj]
  constructor
  · rintro ⟨p, hlo, hhi, rfl⟩
    refine ⟨Nat.div_le_div_right hlo, ?_⟩
    have hz : t.size j ≠ 0 := fun hz ↦ by
      rw [offset_succ] at hhi
      omega
    rw [if_neg hz]
    exact lt_of_le_of_lt (div_mul_le_self p t.chunkSize) hhi
  · rintro ⟨hlo, hhi⟩
    rw [← not_lt, lt_floor hcs, not_le] at hlo
    split_ifs at hhi with hz
    · omega
    refine ⟨max (t.offset j) (c * t.chunkSize), le_max_left _ _, ?_, ?_⟩
    · rw [max_lt_iff, offset_succ] at *
      omega
    rw [succ_mul] at hlo
    apply le_antisymm
    · rw [← Nat.lt_succ_iff, Nat.div_lt_iff_lt_mul hcs, Nat.succ_mul]
      omega
    · rw [le_div_iff_mul_le hcs]
      exact le_max_right _ _

theorem card_range {n a b : ℕ} (hb : b ≤ n) : #{i : Fin n | a ≤ (i : ℕ) ∧ (i : ℕ) < b} = b - a := by
  rw [← card_Ico, ← card_map Fin.valEmbedding]
  congr 1
  ext k
  simp only [mem_map, mem_filter, mem_univ, true_and, Fin.valEmbedding_apply, mem_Ico]
  constructor
  · rintro ⟨i, hi, rfl⟩
    exact hi
  · intro hk
    exact ⟨⟨k, by omega⟩, hk, rfl⟩

variable (hcs : 0 < t.chunkSize) (hN : t.chunkCount < 2 ^ 32) (hj : j < t.entries.length)
include hcs hN hj

theorem first_le_second : t.offset j / t.chunkSize ≤ t.second j := by
  have hmono : t.offset j ≤ t.offset (j + 1) := offset_mono (le_succ j)
  rw [second_eq hcs hN hj]
  split_ifs
  · exact le_rfl
  · exact Nat.div_le_div_right (by omega)

theorem second_le : t.second j ≤ t.sizeChunks := by
  have hcount : t.sizeChunks = t.chunkCount := mod_eq_of_lt hN
  rw [hcount, second_eq hcs hN hj]
  split_ifs
  · exact floor_le hcs (t.offset_le j)
  · exact ceil_le (t.offset_le (j + 1))

theorem sizeChunks_file (padding : Bool) : (t.file j padding).sizeChunks =
      #{i : Fin t.sizeChunks | t.offset j / t.chunkSize ≤ (i : ℕ) ∧ (i : ℕ) < t.second j} := by
  have hle := second_le hcs hN hj
  have hlt : t.sizeChunks < 2 ^ 32 := mod_lt _ (by omega)
  rw [card_range hle, File.sizeChunks, rangeFirst_file hcs hN, rangeSecond_file hcs hN, ← second_eq hcs hN hj,
    Nat.add_comm, Nat.add_sub_assoc (first_le_second hcs hN hj), Nat.add_mod_left]
  exact mod_eq_of_lt (lt_of_le_of_lt ((sub_le _ _).trans hle) hlt)

theorem tallied_of_count {padding : Bool} {c : ℕ} {b : Bitfield t.sizeChunks}
    (hc : c = #{i : Fin t.sizeChunks | (t.offset j / t.chunkSize ≤ i ∧ i < t.second j) ∧ b.bits i}) :
    File.Tallied t.chunkSize b ((t.file j padding).setCompletedProtected c) := by
  have hoverlap := overlaps_iff hcs hN hj (f := (t.file j padding).setCompletedProtected c)
    (by rw [file, setRange]; split_ifs <;> rfl) (by rw [file, setRange]; split_ifs <;> rfl)
  have hle := second_le hcs hN hj
  refine ⟨?_, ?_⟩
  · simp only [setInRange, setCompletedProtected, rangeFirst_file hcs hN, rangeSecond_file hcs hN, ← second_eq hcs hN hj,
      ← and_assoc]
    exact hc
  have hcompleted : ((t.file j padding).setCompletedProtected c).completed = c := rfl
  simp only [hoverlap]
  rw [sizeChunks_setCompletedProtected, hcompleted, sizeChunks_file hcs hN hj, hc, ← filter_filter,
    card_filter_eq_iff]
  constructor
  · intro h k hk
    exact ⟨by omega, h ⟨k, by omega⟩ (by simpa using hk)⟩
  intro h i hi
  obtain ⟨_, hbit⟩ := h i (by simpa using hi)
  exact hbit

end Layout

namespace FileList

variable {t : Layout} {isWanted bits : Fin t.sizeChunks → Bool}

theorem Reached.tallied (hcs : 0 < t.chunkSize) (hclean : t.Clean) {fl : FileList t.sizeChunks}
    (h : Reached isWanted bits fl) : ∀ f ∈ fl.files, f.Tallied t.chunkSize fl.bitfield := by
  intro f hf
  rw [h.files_eq] at hf
  obtain ⟨j, hj, rfl⟩ := List.mem_iff_getElem.mp hf
  rw [length_marked] at hj
  obtain ⟨padding, hsplit⟩ := split_eq hj
  obtain ⟨_, hget⟩ := List.getElem?_eq_some_iff.mp hsplit
  simp only [marked, List.getElem_mapIdx, hget]
  apply tallied_of_count hcs hclean.1 hj
  congr 1
  ext i
  have hmem : Hit t.second i j ↔ t.offset j / t.chunkSize ≤ i ∧ i < t.second j := by
    rw [← not_lt, lt_floor hcs, not_le]
    exact ⟨hclean.mem_of_hit hcs hj, fun h' ↦ hit_of_mem hcs hclean.1 hj h'.1 h'.2⟩
  simp only [mem_filter, mem_univ, true_and, hmem, h.bits_eq, and_comm]

theorem mem_split (hf : f ∈ split t.chunkSize 0 t.entries) :
    ∃ j < t.entries.length, ∃ padding, f = t.file j padding := by
  obtain ⟨j, hj, rfl⟩ := List.mem_iff_getElem.mp hf
  rw [length_split] at hj
  obtain ⟨padding, hsplit⟩ := split_eq hj
  obtain ⟨_, hget⟩ := List.getElem?_eq_some_iff.mp hsplit
  exact ⟨j, hj, padding, hget⟩

theorem mem_marked (bits : Fin t.sizeChunks → Bool) (hj : j < t.entries.length) :
    ∃ padding, (t.file j padding).setCompletedProtected #{i | bits i ∧ Hit t.second i j} ∈ marked t bits := by
  obtain ⟨padding, hsplit⟩ := split_eq hj
  refine ⟨padding, List.mem_of_getElem? (i := j) ?_⟩
  rw [marked, List.getElem?_mapIdx, hsplit]
  rfl

theorem updateCompleted_all (hall : ∀ i, bits i) :
    updateCompleted (create t isWanted bits) = .ok { create t isWanted bits with
      files := (split t.chunkSize 0 t.entries).map fun f ↦ f.setCompletedProtected f.sizeChunks
      wantedChunks := calcWantedChunks (.update bits) isWanted } := by
  have h : (update bits).isAllSet := isAllSet_iff.mpr hall
  exact if_pos h

/-- With more chunks than 32 bits can count, the last file is taken to be done although the
bitfield has no bit for its last chunk. -/
theorem exists_done_unset (hcs : 0 < t.chunkSize) (hN : 2 ^ 32 ≤ t.chunkCount) (b : Bitfield t.sizeChunks) :
    ∃ f ∈ split t.chunkSize 0 t.entries,
      ¬ File.Tallied t.chunkSize b (f.setCompletedProtected f.sizeChunks) := by
  have htotal := t.offset_length
  have hpos : 0 < t.torrentSize := by
    by_contra hz
    have h := (lt_ceil hcs 0 t.torrentSize).mp (show 0 < t.chunkCount by omega)
    omega
  obtain ⟨p, hp, hsize, hend⟩ := exists_ends (t := t) (j := t.entries.length) (by omega)
  obtain ⟨padding, hsplit⟩ := split_eq hp
  refine ⟨_, List.mem_of_getElem? hsplit, fun h ↦ ?_⟩
  have hlast : (t.torrentSize - 1) / t.chunkSize + 1 = t.chunkCount := by
    rw [chunkCount, ← add_div_right _ hcs]
    congr 1
    omega
  have hcount : t.sizeChunks = t.chunkCount % 2 ^ 32 := rfl
  have hfile : (t.file p padding).offset = t.offset p ∧ (t.file p padding).sizeBytes = t.size p := by
    rw [file, setRange]
    split_ifs <;> exact ⟨rfl, rfl⟩
  have hdone := h.completed_iff.mp (sizeChunks_setCompletedProtected _ _).symm
  rw [offset_succ, htotal] at hend
  obtain ⟨hlt, -⟩ := hdone ((t.torrentSize - 1) / t.chunkSize)
    ⟨t.torrentSize - 1, by simp only [setCompletedProtected, hfile.1]; omega,
      by simp only [setCompletedProtected, hfile.1, hfile.2]; omega, rfl⟩
  omega

theorem reached_progress (hcs : 0 < t.chunkSize) (hN : t.chunkCount < 2 ^ 32) (hunset : ∃ i, bits i = false)
    {order : List ℕ} (hnodup : order.Nodup) (horder : ∀ i ∈ order, ∃ h : i < t.sizeChunks, bits ⟨i, h⟩ = false) :
    ∃ bits' fl, progress t isWanted bits order = .ok fl ∧ Reached isWanted bits' fl ∧
      ∀ k, bits' k ↔ bits k ∨ (k : ℕ) ∈ order := by
  have hex : ∀ i < t.sizeChunks, ∃ m, i < t.second m := fun i ↦ exists_lt_second hcs hN
  obtain ⟨fl, hupdate, h⟩ : ∃ fl, updateCompleted (create t isWanted bits) = .ok fl ∧ Reached isWanted bits fl :=
    reached_updateCompleted hex hunset
  obtain ⟨bits', fl', hrun, h', hbits⟩ := reached_forEach hex order hnodup horder h
  exact ⟨bits', fl', by rw [progress, hupdate, ok_bind, hrun], h', hbits⟩

/-- The files of a layout count their chunks right in any progress exactly if the layout is
clean. -/
theorem progress_tallied_iff (t : Layout) (hcs : 0 < t.chunkSize) :
    (∀ (isWanted bits : Fin t.sizeChunks → Bool) (order : List ℕ), order.Nodup →
        (∀ i ∈ order, ∃ h : i < t.sizeChunks, bits ⟨i, h⟩ = false) →
        ∃ fl, progress t isWanted bits order = .ok fl ∧ (∀ i, fl.bitfield.bits i ↔ bits i ∨ (i : ℕ) ∈ order) ∧
          ∀ f ∈ fl.files, f.Tallied t.chunkSize fl.bitfield) ↔
      t.chunkCount < 2 ^ 32 ∧
        ∀ j < t.entries.length, 0 < t.offset j → 0 < t.size j ∧ ¬ t.chunkSize ∣ t.offset j := by
  constructor
  · intro h
    have hN : t.chunkCount < 2 ^ 32 := by
      by_contra hN
      obtain ⟨fl, hfl, -, htally⟩ := h (fun _ ↦ true) (fun _ ↦ true) [] List.nodup_nil (by simp)
      rw [progress, updateCompleted_all fun _ ↦ rfl] at hfl
      cases hfl
      obtain ⟨f, hf, hno⟩ := exists_done_unset hcs (not_lt.mp hN) (.update fun _ ↦ true)
      exact hno (htally _ (List.mem_map_of_mem hf))
    refine ⟨hN, fun j hj h0 ↦ ?_⟩
    by_contra hbad
    rw [not_and_or, not_lt, le_zero, not_not] at hbad
    have hcount := mod_eq_of_lt hN
    obtain ⟨i, hi, hhit, hout⟩ := exists_stray_hit hcs hN hj h0 hbad
    rw [← hcount] at hi
    have horder : ∀ k ∈ [i], ∃ h : k < t.sizeChunks, (fun _ ↦ false : Fin t.sizeChunks → Bool) ⟨k, h⟩ = false :=
      fun k hk ↦ ⟨by rwa [List.mem_singleton.mp hk], rfl⟩
    obtain ⟨fl, hfl, hbits, htally⟩ := h (fun _ ↦ true) (fun _ ↦ false) [i] (List.nodup_singleton i) horder
    obtain ⟨bits', fl', hrun, hreached, hbits'⟩ : ∃ bits' fl', progress t (fun _ ↦ true) (fun _ ↦ false) [i] = .ok fl' ∧
        Reached (fun _ ↦ true) bits' fl' ∧ ∀ k, bits' k ↔ false = true ∨ (k : ℕ) ∈ [i] :=
      reached_progress hcs hN ⟨⟨i, hi⟩, rfl⟩ (List.nodup_singleton i) horder
    obtain rfl := Except.ok.inj (hfl.symm.trans hrun)
    obtain ⟨padding, hmem⟩ := mem_marked bits' hj
    have hcount := (htally _ (hreached.files_eq ▸ hmem)).completed_eq
    rw [setInRange, hreached.bits_eq] at hcount
    have hpos : 0 < #{k | bits' k ∧ Hit t.second k j} :=
      card_pos.mpr ⟨⟨i, hi⟩, by simp [hbits', hhit]⟩
    refine hpos.ne' (hcount.trans (card_eq_zero.mpr (filter_eq_empty_iff.mpr ?_)))
    rintro k - ⟨hfirst, hsecond, hk⟩
    obtain rfl : (k : ℕ) = i := by simpa using (hbits' k).mp hk
    rw [setCompletedProtected, rangeFirst_file hcs hN, ← not_lt, lt_floor hcs, not_le] at hfirst
    rw [setCompletedProtected, rangeSecond_file hcs hN, ← second_eq hcs hN hj] at hsecond
    exact hout ⟨hfirst, hsecond⟩
  · rintro ⟨hN, hclean⟩ isWanted bits order hnodup horder
    by_cases hall : ∀ i, bits i
    · obtain rfl : order = [] := by
        refine List.eq_nil_iff_forall_not_mem.mpr fun i hi ↦ ?_
        obtain ⟨hlt, hunset⟩ := horder i hi
        simp [hall] at hunset
      refine ⟨_, by rw [progress, updateCompleted_all hall]; rfl, by simp [create, update], ?_⟩
      intro f hf
      obtain ⟨f₀, hf₀, rfl⟩ := List.mem_map.mp hf
      obtain ⟨j, hj, padding, rfl⟩ := mem_split hf₀
      apply tallied_of_count hcs hN hj
      simp [sizeChunks_file hcs hN hj, create, update, hall]
    · have hunset : ∃ i, bits i = false := by simpa using hall
      obtain ⟨bits', fl, hrun, hreached, hbits⟩ :=
        reached_progress hcs hN hunset hnodup horder
      refine ⟨fl, hrun, fun i ↦ ?_, hreached.tallied hcs ⟨hN, hclean⟩⟩
      rw [hreached.bits_eq]
      exact hbits i

theorem progress_tallied_shared :
    ∃ fl, progress ⟨10, [(5, false), (15, false)]⟩ (fun _ ↦ true) (fun _ ↦ false) [0] = .ok fl ∧
      (∀ i, fl.bitfield.bits i ↔ false = true ∨ (i : ℕ) ∈ [0]) ∧ ∀ f ∈ fl.files, f.Tallied 10 fl.bitfield :=
  (progress_tallied_iff ⟨10, [(5, false), (15, false)]⟩ (by decide)).mpr
    ⟨by decide, by decide⟩ (fun _ ↦ true) (fun _ ↦ false) [0] (by decide) (by decide)

/-- Files of ten and twenty bytes, in chunks of ten. The second file is counted for the
chunk of the first, so that it has three chunks completed of the two in its range. -/
theorem progress_not_tallied_aligned :
    ∃ fl, progress ⟨10, [(10, false), (20, false)]⟩ (fun _ ↦ true) (fun _ ↦ false) [0, 1, 2] = .ok fl ∧
      fl.files.map (fun f ↦ (f.completed, f.setInRange fl.bitfield)) = [(1, 1), (3, 2)] :=
  ⟨_, rfl, rfl⟩

end FileList

end LibTorrent
