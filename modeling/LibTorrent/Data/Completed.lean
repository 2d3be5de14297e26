import LibTorrent.Data.Bitfield
import LibTorrent.Lib.Outcome
import Mathlib.Algebra.Order.Floor.Div

namespace LibTorrent

open Finset Lib.Outcome

/-- `torrent::File`, as far as its place in the torrent and its progress are concerned. The
bounds of the chunk range have 32 bits. -/
structure File where
  offset : ℕ
  sizeBytes : ℕ
  isPadding : Bool
  rangeFirst : ℕ
  rangeSecond : ℕ
  completed : ℕ

namespace File

def setRange (chunkSize : ℕ) (f : File) : File :=
  if chunkSize = 0 then { f with rangeFirst := 0, rangeSecond := 0 }
  else if f.sizeBytes = 0 then
    { f with rangeFirst := f.offset / chunkSize % 2 ^ 32, rangeSecond := f.offset / chunkSize % 2 ^ 32 }
  else
    { f with
      rangeFirst := f.offset / chunkSize % 2 ^ 32
      rangeSecond := (f.offset + f.sizeBytes + chunkSize - 1) / chunkSize % 2 ^ 32 }

def sizeChunks (f : File) : ℕ := (f.rangeSecond + 2 ^ 32 - f.rangeFirst) % 2 ^ 32

def incCompletedProtected (f : File) : File := { f with completed := f.completed + 1 }

def setCompletedProtected (v : ℕ) (f : File) : File := { f with completed := v }

end File

structure Layout where
  chunkSize : ℕ
  entries : List (ℕ × Bool)

namespace Layout

def torrentSize (t : Layout) : ℕ := (t.entries.map Prod.fst).sum

def sizeChunks (t : Layout) : ℕ := (t.torrentSize + t.chunkSize - 1) / t.chunkSize % 2 ^ 32

/-- The loop of `FileList::split`. -/
def split (chunkSize : ℕ) : ℕ → List (ℕ × Bool) → List File
  | _, [] => []
  | offset, (size, padding) :: l =>
    File.setRange chunkSize ⟨offset, size, padding, 0, 0, 0⟩ :: split chunkSize (offset + size) l

end Layout

/-- `torrent::FileList` for `n` chunks. A chunk is wanted if it is in the normal or the high
priority ranges. -/
structure FileList (n : ℕ) where
  files : List File
  bitfield : Bitfield n
  isWanted : Fin n → Bool
  wantedChunks : ℕ

namespace FileList

variable {n : ℕ}

def create (t : Layout) (isWanted bits : Fin t.sizeChunks → Bool) : FileList t.sizeChunks where
  files := Layout.split t.chunkSize 0 t.entries
  bitfield := .update bits
  isWanted := isWanted
  wantedChunks := 0

def calcWantedChunks (bitfield : Bitfield n) (isWanted : Fin n → Bool) : ℕ :=
  if bitfield.isAllSet then 0
  else if bitfield.isAllUnset then min #{i | isWanted i} (n - bitfield.sizeSet)
  else #{i | isWanted i ∧ !bitfield.bits i}

/-- `inc_completed`, with the iterators as positions in the list. -/
def incCompleted (firstItr index : ℕ) (files : List File) : Except String (ℕ × List File) :=
  let firstItr := firstItr + (files.drop firstItr).findIdx fun f ↦ index < f.rangeSecond
  let lastItr := firstItr + (files.drop firstItr).findIdx fun f ↦ index + 1 < f.rangeSecond
  if firstItr = files.length then .error "FileList::inc_completed() first == m_entryList->end()."
  else .ok (lastItr, files.mapIdx fun j f ↦ if firstItr ≤ j ∧ j ≤ lastItr then f.incCompletedProtected else f)

def markCompleted (index : ℕ) (fl : FileList n) : Except String (FileList n) :=
  if h : n ≤ index ∨ n ≤ fl.bitfield.sizeSet then
    .error "FileList::mark_completed(...) received an invalid index."
  else
    let i : Fin n := ⟨index, not_le.mp (not_or.mp h).1⟩
    if fl.bitfield.bits i then
      .error "FileList::mark_completed(...) received a chunk that has already been finished."
    else do
      let (_, files) ← incCompleted 0 index fl.files
      let fl := { fl with bitfield := fl.bitfield.set i, files := files }
      if fl.isWanted i then
        if fl.wantedChunks = 0 then .error "FileList::mark_completed(...) m_data.wanted_chunks() == 0."
        else .ok { fl with wantedChunks := fl.wantedChunks - 1 }
      else .ok fl

def updateCompleted (fl : FileList n) : Except String (FileList n) :=
  let fl := { fl with wantedChunks := calcWantedChunks fl.bitfield fl.isWanted }
  if fl.bitfield.isAllSet then
    .ok { fl with files := fl.files.map fun f ↦ f.setCompletedProtected f.sizeChunks }
  else
    let files := fl.files.map (File.setCompletedProtected 0)
    if fl.bitfield.isAllUnset then .ok { fl with files := files }
    else do
      let (_, files) ← forEach
        (fun i (itr, files) ↦ if fl.bitfield.bits i then incCompleted itr i files else .ok (itr, files))
        (List.finRange n) (0, files)
      .ok { fl with files := files }

/-- The chunks are restored from the bits, and then others are completed in some order. -/
def progress (t : Layout) (isWanted bits : Fin t.sizeChunks → Bool) (order : List ℕ) :
    Except String (FileList t.sizeChunks) := do
  let fl ← updateCompleted (create t isWanted bits)
  forEach markCompleted order fl

end FileList

open Bitfield File Function Layout Nat

variable {j : ℕ}

namespace Layout

variable (t : Layout)

def offset (j : ℕ) : ℕ := ((t.entries.map Prod.fst).take j).sum

def size (j : ℕ) : ℕ := (t.entries.map Prod.fst).getD j 0

def second (j : ℕ) : ℕ := ((split t.chunkSize 0 t.entries).map rangeSecond).getD j 0

variable {t}

@[simp] theorem offset_zero : t.offset 0 = 0 := rfl

theorem offset_succ (j : ℕ) : t.offset (j + 1) = t.offset j + t.size j := by
  rw [offset, offset, size]
  generalize t.entries.map Prod.fst = l
  induction l generalizing j with
  | nil => simp
  | cons a l ih =>
    cases j with
    | zero => simp
    | succ j => simp [ih, add_assoc]

theorem offset_mono {i j : ℕ} (h : i ≤ j) : t.offset i ≤ t.offset j := by
  induction h with
  | refl => exact le_rfl
  | step h ih => exact ih.trans (by rw [succ_eq_add_one, offset_succ]; exact le_add_right _ _)

theorem offset_le (j : ℕ) : t.offset j ≤ t.torrentSize := by
  rw [offset, torrentSize]
  nth_rewrite 2 [← List.take_append_drop j (t.entries.map Prod.fst)]
  rw [List.sum_append]
  exact le_add_right _ _

theorem split_getElem? (cs off : ℕ) (l : List (ℕ × Bool)) (j : ℕ) : (split cs off l)[j]? = l[j]?.map fun e ↦
      setRange cs ⟨off + ((l.map Prod.fst).take j).sum, e.1, e.2, 0, 0, 0⟩ := by
  induction l generalizing off j with
  | nil => simp [split]
  | cons e l ih =>
    cases j with
    | zero => simp [split]
    | succ j => simp [split, ih, add_assoc]

end Layout

namespace FileList

/-- The files that `inc_completed` counts for a chunk, given the ends of the chunk ranges:
those from the first range that reaches the chunk to the first that goes past it. -/
def Hit (second : ℕ → ℕ) (index j : ℕ) : Prop :=
  (∃ m ≤ j, index < second m) ∧ ∀ m < j, second m ≤ index + 1

instance (second : ℕ → ℕ) (index j : ℕ) : Decidable (Hit second index j) :=
  inferInstanceAs (Decidable (_ ∧ _))

def seconds (files : List File) (j : ℕ) : ℕ := (files.map rangeSecond).getD j 0

variable {files : List File} {k n : ℕ}

theorem lt_length_of_lt_seconds (h : i < seconds files j) : j < files.length := by
  by_contra hj
  simp [seconds, List.getElem?_eq_none (not_lt.mp hj)] at h

theorem findIdx_spec (files : List File) (i : ℕ) :
    (∀ m < files.findIdx fun f ↦ i < f.rangeSecond, seconds files m ≤ i) ∧
      ((files.findIdx fun f ↦ i < f.rangeSecond) < files.length →
        i < seconds files (files.findIdx fun f ↦ i < f.rangeSecond)) := by
  induction files with
  | nil => simp
  | cons f files ih =>
    rw [List.findIdx_cons]
    by_cases hf : i < f.rangeSecond
    · simp [hf, seconds]
    simp only [hf, decide_false, cond_false]
    refine ⟨fun m hm ↦ ?_, fun hlt ↦ ?_⟩
    · cases m with
      | zero => simpa [seconds] using hf
      | succ m => simpa [seconds] using ih.1 m (by omega)
    · simpa [seconds] using ih.2 (by simpa using hlt)

theorem findIdx_drop_spec (files : List File) (k i : ℕ) (hk : k ≤ files.length) :
    let first := k + (files.drop k).findIdx fun f ↦ i < f.rangeSecond
    first ≤ files.length ∧ k ≤ first ∧ (∀ m, k ≤ m → m < first → seconds files m ≤ i) ∧
      (first < files.length → i < seconds files first) := by
  have hdrop (m : ℕ) : seconds (files.drop k) m = seconds files (k + m) := by simp [seconds]
  have hle : ((files.drop k).findIdx fun f ↦ decide (i < f.rangeSecond)) ≤ (files.drop k).length :=
    List.findIdx_le_length
  obtain ⟨hbefore, hat⟩ := findIdx_spec (files.drop k) i
  simp only [hdrop, List.length_drop] at hle hbefore hat
  generalize (files.drop k).findIdx (fun f ↦ decide (i < f.rangeSecond)) = idx at *
  intro first
  refine ⟨by omega, Nat.le_add_right _ _, fun m hkm hm ↦ ?_, fun hlt ↦ hat (by omega)⟩
  have h := hbefore (m - k) (by omega)
  rwa [Nat.add_sub_cancel' hkm] at h

theorem incCompleted_spec (hk : k ≤ files.length)
    (hbefore : ∀ m < k, seconds files m ≤ i) (hex : ∃ m, i < seconds files m) :
    ∃ last ≤ files.length, (∀ m < last, seconds files m ≤ i + 1) ∧
      incCompleted k i files = .ok (last, files.mapIdx fun j f ↦
        if Hit (seconds files) i j then f.incCompletedProtected else f) := by
  obtain ⟨hf₁, hf₂, hf₃, hf₄⟩ := findIdx_drop_spec files k i hk
  set first := k + (files.drop k).findIdx fun f ↦ i < f.rangeSecond with hfirst
  obtain ⟨hl₁, hl₂, hl₃, hl₄⟩ := findIdx_drop_spec files first (i + 1) hf₁
  set last := first + (files.drop first).findIdx fun f ↦ i + 1 < f.rangeSecond with hlast
  have hbelow (m : ℕ) (hm : m < first) : seconds files m ≤ i := by
    rcases lt_or_ge m k with h | h
    · exact hbefore m h
    · exact hf₃ m h hm
  have hne : first < files.length := by
    obtain ⟨m, hm⟩ := hex
    by_contra hge
    have := hbelow m (lt_of_lt_of_le (lt_length_of_lt_seconds hm) (not_lt.mp hge))
    omega
  refine ⟨last, hl₁, fun m hm ↦ ?_, ?_⟩
  · rcases lt_or_ge m first with h | h
    · exact (hbelow m h).trans (le_succ i)
    · exact hl₃ m h hm
  rw [incCompleted]
  simp only [← hfirst, ← hlast]
  rw [if_neg hne.ne]
  have hhit (j : ℕ) (hj : j < files.length) : first ≤ j ∧ j ≤ last ↔ Hit (seconds files) i j := by
    constructor
    · rintro ⟨h₁, h₂⟩
      refine ⟨⟨first, h₁, hf₄ hne⟩, fun m hm ↦ ?_⟩
      rcases lt_or_ge m first with h | h
      · exact (hbelow m h).trans (le_succ i)
      · exact hl₃ m h (lt_of_lt_of_le hm h₂)
    rintro ⟨⟨m, hmj, hm⟩, hlow⟩
    have hfj : first ≤ j := by
      by_contra h
      have := hbelow m (by omega)
      omega
    refine ⟨hfj, ?_⟩
    by_contra h
    have h₁ := hlow last (by omega)
    omega
  congr 2
  apply List.ext_getElem
  · simp
  intro j hj _
  simp only [List.getElem_mapIdx]
  rw [List.length_mapIdx] at hj
  simp only [hhit j hj]

def marked (t : Layout) (bits : Fin t.sizeChunks → Bool) : List File :=
  (split t.chunkSize 0 t.entries).mapIdx fun j f ↦
    f.setCompletedProtected #{i | bits i ∧ Hit t.second i j}

variable {t : Layout} {bits : Fin t.sizeChunks → Bool} {i : Fin t.sizeChunks} {fl : FileList t.sizeChunks}

theorem seconds_mapIdx {g : ℕ → File → File} (h : ∀ j f, (g j f).rangeSecond = f.rangeSecond) :
    seconds (files.mapIdx g) = seconds files := by
  funext j
  simp only [seconds]
  congr 1
  apply List.ext_getElem
  · simp
  · intro m _ _
    simp [h]

theorem seconds_marked : seconds (marked t bits) = t.second := seconds_mapIdx fun _ _ ↦ rfl

theorem card_insert_bit {bits : Fin n → Bool} {i : Fin n} (hi : bits i = false) (P : Fin n → Prop)
    [DecidablePred P] :
    #{k | update bits i true k ∧ P k} = #{k | bits k ∧ P k} + if P i then 1 else 0 := by
  split_ifs with hP
  · rw [← card_insert_of_notMem (a := i) (by simp [hi])]
    congr 1
    ext k
    by_cases hk : k = i
    · subst hk
      simp [hP]
    · simp [hk]
  · rw [add_zero]
    congr 1
    ext k
    by_cases hk : k = i
    · subst hk
      simp [hP]
    · simp [hk]

theorem length_split (cs off : ℕ) (l : List (ℕ × Bool)) : (split cs off l).length = l.length := by
  induction l generalizing off with
  | nil => rfl
  | cons e l ih => simp [split, ih]

theorem length_marked : (marked t bits).length = t.entries.length := by
  simp [marked, length_split]

theorem incCompleted_marked (hi : bits i = false) (hk : k ≤ t.entries.length)
    (hbefore : ∀ m < k, t.second m ≤ i) (hex : ∃ m, (i : ℕ) < t.second m) :
    ∃ last ≤ t.entries.length, (∀ m < last, t.second m ≤ i + 1) ∧
      incCompleted k i (marked t bits) = .ok (last, marked t (update bits i true)) := by
  have hs : seconds (marked t bits) = t.second := seconds_marked
  have hlen : k ≤ (marked t bits).length := by rwa [length_marked]
  obtain ⟨last, hl, hlast, hinc⟩ := incCompleted_spec hlen (by rwa [hs]) (by rwa [hs])
  rw [length_marked] at hl
  rw [hs] at hlast
  refine ⟨last, hl, hlast, ?_⟩
  rw [hinc, hs]
  congr 2
  apply List.ext_getElem
  · simp [length_marked]
  intro j _ _
  simp only [marked, List.getElem_mapIdx, setCompletedProtected]
  rw [card_insert_bit hi fun k ↦ Hit t.second k j]
  split_ifs
  · rfl
  · rfl

def below {n : ℕ} (bits : Fin n → Bool) (m : ℕ) : Fin n → Bool := fun i ↦ bits i && decide ((i : ℕ) < m)

theorem ensures_updateLoop (hex : ∀ i < t.sizeChunks, ∃ m, i < t.second m) (l : List (Fin t.sizeChunks)) (m : ℕ)
    (hl : l.map Fin.val = List.range' m (t.sizeChunks - m)) (hk : k ≤ t.entries.length)
    (hbefore : ∀ j < k, t.second j ≤ m) :
    ∃ last, forEach (fun (i : Fin t.sizeChunks) (s : ℕ × List File) ↦
        if bits i then incCompleted s.1 i s.2 else .ok s) l (k, marked t (below bits m)) =
      .ok (last, marked t bits) := by
  induction l generalizing m k with
  | nil =>
    refine ⟨k, ?_⟩
    have hm : t.sizeChunks ≤ m := by
      have := congrArg List.length hl
      simp at this
      omega
    have hall : below bits m = bits := by
      funext i
      have := i.isLt
      simp [below, lt_of_lt_of_le this hm]
    rw [hall]
    rfl
  | cons i l ih =>
    have hlt : m < t.sizeChunks := by
      have := congrArg List.length hl
      simp at this
      omega
    obtain ⟨hi, hl'⟩ : (i : ℕ) = m ∧ l.map Fin.val = List.range' (m + 1) (t.sizeChunks - (m + 1)) := by
      have hsucc : t.sizeChunks - m = t.sizeChunks - (m + 1) + 1 := by omega
      rw [hsucc, List.range'_succ, List.map_cons, List.cons.injEq] at hl
      exact hl
    rw [forEach]
    cases hb : bits i with
    | false =>
      have hnext : below bits (m + 1) = below bits m := by
        funext j
        by_cases hj : j = i
        · subst hj
          simp [below, hb]
        simp only [below]
        congr 2
        apply propext
        omega
      rw [← hnext]
      exact ih (m + 1) hl' hk fun j hj ↦ (hbefore j hj).trans (le_succ m)
    | true =>
      have hnext : update (below bits m) i true = below bits (m + 1) := by
        funext j
        by_cases hj : j = i
        · subst hj
          simp [below, hb, hi]
        simp only [below, update_of_ne hj]
        congr 2
        apply propext
        omega
      have hunset : below bits m i = false := by simp [below, hi]
      obtain ⟨last, hlen, hlast, hinc⟩ := incCompleted_marked hunset hk (by rwa [hi]) (hex i i.isLt)
      simp only [if_true, hinc, ok_bind, hnext]
      exact ih (m + 1) hl' hlen (by rwa [hi] at hlast)

theorem calcWantedChunks_eq (b : Bitfield n) (isWanted : Fin n → Bool) :
    calcWantedChunks b isWanted = #{i | isWanted i ∧ !b.bits i} := by
  rw [calcWantedChunks]
  split_ifs with hall hunset
  · have h := isAllSet_iff.mp hall
    simp [h]
  · have h := isAllUnset_iff.mp hunset
    have hz : b.sizeSet = 0 := by simpa [isAllUnset] using hunset
    have hle : #{i | isWanted i} ≤ n := by simpa using card_le_univ ({i | isWanted i} : Finset (Fin n))
    simp [h, hz, hle]
  · rfl

/-- The state in which exactly the chunks of `bits` are completed and counted. -/
structure Reached (isWanted bits : Fin t.sizeChunks → Bool) (fl : FileList t.sizeChunks) : Prop where
  files_eq : fl.files = marked t bits
  bits_eq : fl.bitfield.bits = bits
  isWanted_eq : fl.isWanted = isWanted
  wantedChunks_eq : fl.wantedChunks = #{i | isWanted i ∧ !bits i}

variable {isWanted : Fin t.sizeChunks → Bool}

theorem marked_unset (h : ∀ i, bits i = false) :
    marked t bits = (split t.chunkSize 0 t.entries).map (setCompletedProtected 0) := by
  apply List.ext_getElem
  · simp [marked]
  · intro j _ _
    simp [marked, h]

theorem reached_updateCompleted (hex : ∀ i < t.sizeChunks, ∃ m, i < t.second m) (hbits : ∃ i, bits i = false) :
    ∃ fl, updateCompleted (create t isWanted bits) = .ok fl ∧ Reached isWanted bits fl := by
  obtain ⟨i, hi⟩ := hbits
  have hall : ¬ (Bitfield.update bits).isAllSet := by
    rw [Bitfield.isAllSet_iff]
    exact fun h ↦ absurd (h i) (by simp [Bitfield.update, hi])
  by_cases hunset : (Bitfield.update bits).isAllUnset
  · refine ⟨{ create t isWanted bits with
      files := (split t.chunkSize 0 t.entries).map (setCompletedProtected 0)
      wantedChunks := calcWantedChunks (.update bits) isWanted }, ?_,
      (marked_unset (Bitfield.isAllUnset_iff.mp hunset)).symm, rfl, rfl, calcWantedChunks_eq _ _⟩
    exact (if_neg hall).trans (if_pos hunset)
  have hstart : marked t (below bits 0) = (split t.chunkSize 0 t.entries).map (setCompletedProtected 0) :=
    marked_unset (by simp [below])
  obtain ⟨last, hloop⟩ : ∃ last, forEach _ (List.finRange t.sizeChunks) (0, marked t (below bits 0)) =
      .ok (last, marked t bits) :=
    ensures_updateLoop hex _ 0 (by simp [List.range_eq_range']) (zero_le _) (by simp)
  rw [hstart] at hloop
  refine ⟨{ create t isWanted bits with
    files := marked t bits
    wantedChunks := calcWantedChunks (.update bits) isWanted }, ?_, rfl, rfl, rfl, calcWantedChunks_eq _ _⟩
  refine (if_neg hall).trans ((if_neg hunset).trans ?_)
  exact congrArg (fun r ↦ r.bind fun s ↦ .ok { create t isWanted bits with
    files := s.2, wantedChunks := calcWantedChunks (.update bits) isWanted }) hloop

theorem card_wanted_update (isWanted : Fin t.sizeChunks → Bool) (hi : bits i = false) :
    #{k | isWanted k ∧ !bits k} =
      #{k | isWanted k ∧ !update bits i true k} + if isWanted i then 1 else 0 := by
  have hset (b : Fin t.sizeChunks → Bool) :
      #{k | isWanted k ∧ !b k} + #{k | b k ∧ isWanted k} = #{k | isWanted k} := by
    rw [← card_filter_add_card_filter_not (s := {k | isWanted k}) fun k ↦ !b k, filter_filter, filter_filter]
    congr 2
    ext k
    simp [and_comm]
  have h₁ := hset bits
  have h₂ := hset (update bits i true)
  have h₃ := card_insert_bit hi fun k ↦ isWanted k = true
  omega

theorem reached_markCompleted (hex : ∀ i < t.sizeChunks, ∃ m, i < t.second m)
    (h : Reached isWanted bits fl) (hi : bits i = false) :
    ∃ fl', markCompleted i fl = .ok fl' ∧ Reached isWanted (update bits i true) fl' := by
  have hbit : fl.bitfield.bits i = false := by rw [h.bits_eq, hi]
  have hsize := sizeSet_lt hbit
  have hwanted := card_wanted_update isWanted hi
  obtain ⟨last, -, -, hinc⟩ := incCompleted_marked hi (zero_le _) (by simp) (hex i i.isLt)
  rw [markCompleted, dif_neg (by have := i.isLt; omega)]
  simp only [Fin.eta, hbit, h.files_eq, hinc, h.isWanted_eq, h.wantedChunks_eq, ok_bind]
  have hbits : (fl.bitfield.set i).bits = update bits i true := by rw [← h.bits_eq, Bitfield.set]
  cases hw : isWanted i with
  | false =>
    refine ⟨_, rfl, rfl, hbits, rfl, ?_⟩
    simpa [hw] using hwanted
  | true =>
    rw [hw, if_pos rfl] at hwanted
    simp only [Bool.false_eq_true, if_false, if_true]
    rw [if_neg (by omega)]
    exact ⟨_, rfl, rfl, hbits, rfl, by dsimp only; omega⟩

theorem reached_forEach (hex : ∀ i < t.sizeChunks, ∃ m, i < t.second m) (order : List ℕ) (hnodup : order.Nodup)
    (horder : ∀ i ∈ order, ∃ h : i < t.sizeChunks, bits ⟨i, h⟩ = false)
    (h : Reached isWanted bits fl) :
    ∃ bits' fl', forEach markCompleted order fl = .ok fl' ∧ Reached isWanted bits' fl' ∧
      ∀ k, bits' k ↔ bits k ∨ (k : ℕ) ∈ order := by
  induction order generalizing bits fl with
  | nil => exact ⟨bits, fl, rfl, h, by simp⟩
  | cons i order ih =>
    obtain ⟨hlt, hi⟩ := horder i List.mem_cons_self
    obtain ⟨fl₁, hmark, h₁⟩ := reached_markCompleted hex h hi
    obtain ⟨hnot, hnodup⟩ := List.nodup_cons.mp hnodup
    have hrest : ∀ k ∈ order, ∃ h : k < t.sizeChunks, update bits ⟨i, hlt⟩ true ⟨k, h⟩ = false := by
      intro k hk
      obtain ⟨hk', hunset⟩ := horder k (List.mem_cons_of_mem i hk)
      refine ⟨hk', ?_⟩
      rw [update_of_ne, hunset]
      intro heq
      exact hnot (by rwa [← Fin.mk.inj heq])
    obtain ⟨bits', fl', hrun, h', hbits⟩ := ih hnodup hrest h₁
    refine ⟨bits', fl', ?_, h', fun k ↦ ?_⟩
    · rw [forEach, hmark, ok_bind, hrun]
    rw [hbits, List.mem_cons]
    by_cases hk : k = ⟨i, hlt⟩
    · simp [hk]
    · have hne : (k : ℕ) ≠ i := fun h ↦ hk (Fin.ext h)
      simp [hk, hne]

end FileList

end LibTorrent
