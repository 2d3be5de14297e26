import LibTorrent.Data.MappedChunk

namespace LibTorrent

open ChunkPart Lib.Decimal Lib.Memory List

variable {m : ℕ → UInt8} {parts rest : List ChunkPart} {p : ChunkPart} {a first last : ℕ}

namespace ChunkIterator

open MappedChunk

variable {it : ChunkIterator} {c : MappedChunk} {σ : Type} {body : σ → ℕ → ℕ → Bool × σ}

/-- The parts from the one on that holds a position. -/
structure Holds (c : MappedChunk) (p : ChunkPart) (rest : List ChunkPart) (first : ℕ) : Prop where
  split : ∃ pre, c.parts = pre ++ p :: rest ∧ Follows 0 pre p.position
  follows : Follows (p.position + p.size) rest c.chunkSize
  low : p.position ≤ first
  high : first < p.position + p.size

/-- The iterator stands in a part of the chunk, and the range is not done. -/
structure Stands (c : MappedChunk) (it : ChunkIterator) : Prop where
  within : ∃ p rest, it.parts = p :: rest ∧ Holds c p rest it.first
  first_lt : it.first < it.last
  last_le : it.last ≤ c.chunkSize

theorem exists_dropWhile (test : ChunkPart → Bool) (last : ℕ) {pre : List ChunkPart} (hfollows : Follows a parts c.chunkSize)
    (hpre : Follows 0 pre a) (hparts : c.parts = pre ++ parts) (hlow : a ≤ first) (hhigh : first < c.chunkSize)
    (htest : ∀ p ∈ parts, p.position ≤ first → (test p = true ↔ p.position + p.size ≤ first)) :
    ∃ p rest, parts.dropWhile test = p :: rest ∧ Holds c p rest first ∧
      segments parts first last = segments (p :: rest) first last := by
  induction parts generalizing a pre with
  | nil =>
    obtain rfl : a = c.chunkSize := hfollows
    omega
  | cons p parts ih =>
    obtain ⟨rfl, hrest⟩ := hfollows
    have hp' := htest p mem_cons_self hlow
    by_cases hpass : p.position + p.size ≤ first
    · rw [dropWhile_cons_of_pos (hp'.mpr hpass)]
      rw [segments, if_pos hpass]
      exact ih hrest (hpre.append p rfl) (by rw [hparts, append_assoc]; rfl) hpass
        fun q hq ↦ htest q (mem_cons_of_mem p hq)
    · rw [dropWhile_cons_of_neg (mt hp'.mp hpass)]
      exact ⟨p, parts, rfl, ⟨⟨pre, hparts, hpre⟩, hrest, hlow, Nat.lt_of_not_le hpass⟩, rfl⟩

theorem create_eq (last : ℕ) (h : first < c.chunkSize) :
    ∃ p rest, create first last c = .ok ⟨p :: rest, first, last⟩ ∧ Holds c p rest first ∧
      segments c.parts first last = segments (p :: rest) first last := by
  obtain ⟨p, rest, hdrop, hholds, hsegments⟩ :=
    exists_dropWhile (fun p ↦ !p.isContained first) last c.follows (show Follows 0 [] 0 from rfl) rfl (Nat.zero_le first)
      h fun q _ hq ↦ by
        rw [isContained, Bool.not_eq_true', decide_eq_false_iff_not]
        omega
  have hlow := hholds.low
  have hhigh := hholds.high
  refine ⟨p, rest, ?_, hholds, hsegments⟩
  rw [create, atPosition, if_neg (by omega), hdrop]
  dsimp only
  rw [if_neg (by omega)]
  rfl

theorem create_stands (hlow : first < last) (hhigh : last ≤ c.chunkSize) :
    ∃ it, create first last c = .ok it ∧ Stands c it ∧ it.first = first ∧ it.last = last ∧
      segments c.parts first last = segments it.parts first last := by
  obtain ⟨p, rest, hcreate, hholds, hsegments⟩ := create_eq last (hlow.trans_le hhigh)
  exact ⟨_, hcreate, ⟨⟨p, rest, rfl, hholds⟩, hlow, hhigh⟩, rfl, rfl, hsegments⟩

theorem Stands.data_eq (hs : Stands c it) : ∃ p rest, it.parts = p :: rest ∧ Holds c p rest it.first ∧
    it.data = .ok (p.begin + (it.first - p.position), min (p.position + p.size - it.first) (it.last - it.first)) := by
  obtain ⟨p, rest, hparts, hholds⟩ := hs.within
  have hlow := hholds.low
  have hhigh := hholds.high
  refine ⟨p, rest, hparts, hholds, ?_⟩
  have hsize : p.size - (it.first - p.position) = p.position + p.size - it.first := by omega
  rw [data, hparts, atMemory, if_neg (by omega), Lib.Outcome.ok_bind, hsize]

def foldWhile (body : σ → ℕ → ℕ → Bool × σ) : List (ℕ × ℕ) → σ → σ
  | [], s => s
  | (a, n) :: l, s => if (body s a n).1 then foldWhile body l (body s a n).2 else (body s a n).2

theorem whileNext_eq {fuel : ℕ} {s : σ} (hs : Stands c it) (hfuel : it.parts.length ≤ fuel) :
    whileNext body fuel it s = .ok (foldWhile body (segments it.parts it.first it.last) s) := by
  induction fuel generalizing it s with
  | zero =>
    obtain ⟨p, rest, hparts, -⟩ := hs.data_eq
    rw [hparts] at hfuel
    exact absurd hfuel (Nat.not_succ_le_zero _)
  | succ fuel ih =>
    obtain ⟨p, rest, hparts, ⟨⟨pre, hc, hpre⟩, hfollows, hlow, hhigh⟩, hdata⟩ := hs.data_eq
    have hfirst := hs.first_lt
    have hlast := hs.last_le
    have hseg : segments it.parts it.first it.last =
        (p.begin + (it.first - p.position), min (p.position + p.size - it.first) (it.last - it.first)) ::
          segments rest (p.position + p.size) it.last := by
      rw [hparts, segments, if_neg (by omega), if_neg (by omega)]
    rw [whileNext, hdata, Lib.Outcome.ok_bind, hseg, foldWhile]
    dsimp only
    cases hgo : (body s (p.begin + (it.first - p.position))
        (min (p.position + p.size - it.first) (it.last - it.first))).1 with
    | false => rfl
    | true =>
      rw [hparts] at hfuel
      simp only [next, hparts, Bool.not_true, Bool.false_eq_true, if_false, if_true]
      by_cases hend : p.position + p.size < it.last
      · obtain ⟨q, rest', hdrop, hholds, hsegments⟩ :=
          exists_dropWhile (fun p ↦ p.size = 0) it.last hfollows (hpre.append p rfl)
            (by rw [hc, append_assoc]; rfl) le_rfl (by omega) fun q hq hle ↦ by
              have hge := hfollows.le_position hq
              rw [decide_eq_true_iff]
              omega
        have hmore : (!(q :: rest').isEmpty && decide (p.position + p.size < it.last)) = true := by simp [hend]
        have hlen := (dropWhile_suffix (l := rest) fun p : ChunkPart ↦ decide (p.size = 0)).length_le
        rw [hdrop] at hlen
        rw [hdrop, hsegments, hmore, if_pos rfl]
        refine ih ⟨⟨q, rest', rfl, hholds⟩, hend, hlast⟩ ?_
        exact hlen.trans (Nat.le_of_succ_le_succ hfuel)
      · have hstop : (!(rest.dropWhile fun p ↦ decide (p.size = 0)).isEmpty && decide (p.position + p.size < it.last)) =
            false := by simp [hend]
        rw [hstop, segments_eq_nil (Nat.le_of_not_lt hend)]
        rfl

theorem Holds.load_eq (h : Holds c p rest first) {k : ℕ} (hk : k ≤ p.position + p.size - first) :
    load m (p.begin + (first - p.position)) k = ((c.flat m).drop first).take k := by
  obtain ⟨⟨pre, hc, hpre⟩, -, hlow, hhigh⟩ := h
  have hlen : (flatParts m pre).length = p.position := by
    have := hpre.length (m := m)
    omega
  have hflat : c.flat m = flatParts m pre ++ (load m p.begin p.size ++ flatParts m rest) := by
    rw [flat, hc, flatParts, flatMap_append, flatMap_cons]
    rfl
  have hpre' : (flatParts m pre).drop first = [] := drop_eq_nil_of_le (by omega)
  rw [hflat, drop_append, hpre', nil_append, hlen, drop_append_of_le_length (by rw [length_load]; omega),
    drop_load (by omega), take_append_of_le_length (by rw [length_load]; omega), take_load (by omega)]

theorem Stands.forward_eq (hs : Stands c it) {k : ℕ} (hk : it.first + k ≤ it.last) :
    ∃ it', it'.first = it.first + k ∧ it'.last = it.last ∧
      (it.forward k = (true, it') ∧ Stands c it' ∨ it.forward k = (false, it') ∧ it'.first = it.last) := by
  obtain ⟨p, rest, hparts, ⟨⟨pre, hc, hpre⟩, hfollows, hlow, hhigh⟩⟩ := hs.within
  have hlast := hs.last_le
  have hlt := c.chunkSize_lt
  have hmod : (it.first + k) % 2 ^ 32 = it.first + k := Nat.mod_eq_of_lt (by omega)
  unfold forward
  rw [hmod]
  by_cases hend : it.last ≤ it.first + k
  · refine ⟨{ it with first := it.first + k }, rfl, rfl, .inr ⟨?_, le_antisymm hk hend⟩⟩
    rw [if_pos hend]
  rw [if_neg hend, hparts]
  obtain ⟨q, rest', hdrop, hholds, -⟩ :=
    exists_dropWhile (fun p ↦ p.position + p.size ≤ it.first + k) it.last
      (show Follows p.position (p :: rest) _ from ⟨rfl, hfollows⟩) hpre hc (by omega) (by omega) fun _ _ _ ↦ decide_eq_true_iff
  refine ⟨⟨q :: rest', it.first + k, it.last⟩, rfl, rfl, .inl ⟨?_, ?_⟩⟩
  · rw [hdrop]
    rfl
  · exact ⟨⟨q, rest', rfl, hholds⟩, Nat.lt_of_not_le hend, hlast⟩

/-- What a sequence of forward steps yields: bytes that follow each other from the place of the iterator, and all of the
range when it cannot go on. Steps that are not empty get to its end. -/
structure Pulled (c : MappedChunk) (m : ℕ → UInt8) (ks : List ℕ) (it : ChunkIterator)
    (r : List Bytes × Bool × ChunkIterator) : Prop where
  le : it.first ≤ r.2.2.first
  last : r.2.2.last = it.last
  bytes : r.1.flatten = ((c.flat m).drop it.first).take (r.2.2.first - it.first)
  stands : r.2.1 = true → Stands c r.2.2
  done : r.2.1 = false → r.2.2.first = it.last
  gains : (∀ k ∈ ks, 0 < k) → r.2.1 = true → it.first + ks.length ≤ r.2.2.first

theorem Stands.pull_eq (hs : Stands c it) (ks : List ℕ) : ∃ r, pull m ks it = .ok r ∧ Pulled c m ks it r := by
  induction ks generalizing it with
  | nil =>
    refine ⟨([], true, it), rfl, le_rfl, rfl, ?_, fun _ ↦ hs, nofun, fun _ _ ↦ le_rfl⟩
    rw [Nat.sub_self, take_zero]
    rfl
  | cons k ks ih =>
    obtain ⟨p, rest, hparts, hholds, hdata⟩ := hs.data_eq
    have hfirst := hs.first_lt
    have hhigh := hholds.high
    rw [pull, hdata, Lib.Outcome.ok_bind]
    dsimp only
    generalize hn : min k (min (p.position + p.size - it.first) (it.last - it.first)) = n
    have hload : load m (p.begin + (it.first - p.position)) n = ((c.flat m).drop it.first).take n :=
      hholds.load_eq (by omega)
    have hpos : 0 < k → 0 < n := by omega
    obtain ⟨it', hfirst', hlast', ⟨hforward, hs'⟩ | ⟨hforward, hend⟩⟩ := hs.forward_eq (k := n) (by omega)
    · obtain ⟨r, hr, hpulled⟩ := ih hs'
      refine ⟨(load m (p.begin + (it.first - p.position)) n :: r.1, r.2), ?_, ?_, ?_, ?_, hpulled.stands, ?_, ?_⟩
      · rw [hforward, if_pos rfl, hr]
        rfl
      · have := hpulled.le
        dsimp only
        omega
      · exact hpulled.last.trans hlast'
      · have hle := hpulled.le
        have hsplit : r.2.2.first - it.first = n + (r.2.2.first - it'.first) := by omega
        rw [flatten_cons, hpulled.bytes, hload, hfirst', hsplit, take_add, drop_drop, ← hfirst']
      · exact fun hno ↦ (hpulled.done hno).trans hlast'
      intro hks hmore
      have hrest := hpulled.gains (fun j hj ↦ hks j (mem_cons_of_mem k hj)) hmore
      have hk := hpos (hks k mem_cons_self)
      rw [length_cons]
      dsimp only
      omega
    · refine ⟨([load m (p.begin + (it.first - p.position)) n], false, it'), ?_, ?_, hlast', ?_, nofun, fun _ ↦ hend, nofun⟩
      · rw [hforward, if_neg Bool.false_ne_true]
      · dsimp only
        omega
      · rw [flatten_singleton, hload, hfirst', Nat.add_sub_cancel_left]

end ChunkIterator

namespace MappedChunk

open ChunkIterator

variable {c : MappedChunk} {position length : ℕ}

theorem foldWhile_append (l : List (ℕ × ℕ)) (s : Bytes) :
    foldWhile (fun s a n ↦ (true, s ++ load m a n)) l s = s ++ l.flatMap fun s ↦ load m s.1 s.2 := by
  induction l generalizing s with
  | nil => exact (append_nil s).symm
  | cons x l ih =>
    rw [foldWhile, if_pos rfl, ih, flatMap_cons, append_assoc]

theorem foldWhile_store (l : List (ℕ × ℕ)) (buffer : Bytes) :
    (foldWhile (fun (s : (ℕ → UInt8) × Bytes) a n ↦ (true, store s.1 a (s.2.take n), s.2.drop n)) l (m, buffer)).1 =
      storeSegments l m buffer := by
  induction l generalizing m buffer with
  | nil => rfl
  | cons x l ih =>
    rw [foldWhile, if_pos rfl, ih]
    rfl

theorem foldWhile_compare (l : List (ℕ × ℕ)) (buffer : Bytes) (h : (l.flatMap fun s ↦ load m s.1 s.2).length ≤ buffer.length) :
    (foldWhile (fun (s : Bool × Bytes) a n ↦
        if load m a n ≠ s.2.take n then (false, false, s.2) else (true, true, s.2.drop n)) l (true, buffer)).1 =
      decide (buffer.take (l.flatMap fun s ↦ load m s.1 s.2).length = l.flatMap fun s ↦ load m s.1 s.2) := by
  induction l generalizing buffer with
  | nil => simp [foldWhile]
  | cons x l ih =>
    obtain ⟨a, n⟩ := x
    rw [flatMap_cons, length_append, length_load] at h ⊢
    rw [foldWhile, take_add]
    by_cases hsame : load m a n = buffer.take n
    · rw [if_neg (not_not.mpr hsame), if_pos rfl, ih (buffer.drop n) (by rw [length_drop]; omega)]
      simp [← hsame]
    rw [if_pos hsame, if_neg Bool.false_ne_true]
    symm
    rw [decide_eq_false_iff_not]
    intro heq
    refine hsame (append_inj_left heq ?_).symm
    rw [length_take, length_load]
    omega

theorem create_whileNext (hlen : length ≠ 0) (h : position + length ≤ c.chunkSize) :
    ∃ it, create position (position + length) c = .ok it ∧ ∀ {σ : Type} (body : σ → ℕ → ℕ → Bool × σ) (s : σ),
      whileNext body it.parts.length it s = .ok (foldWhile body (segments c.parts position (position + length)) s) := by
  have hrange : position < position + length := by omega
  obtain ⟨it, hcreate, hstands, hfirst, hlast, hsegments⟩ := create_stands hrange h
  refine ⟨it, hcreate, fun body s ↦ ?_⟩
  rw [whileNext_eq hstands le_rfl, hsegments, hfirst, hlast]

theorem flatMap_segments_range (h : position + length ≤ c.chunkSize) :
    ((segments c.parts position (position + length)).flatMap fun s ↦ load m s.1 s.2) =
      ((c.flat m).drop position).take length := by
  rw [flatMap_segments c.follows (Nat.zero_le _) (Nat.le_add_right _ _) h, Nat.add_sub_cancel_left]
  rfl

theorem length_flat : (c.flat m).length = c.chunkSize := by
  rw [← c.follows.length, Nat.zero_add]
  rfl

section

variable (h : position + length ≤ c.chunkSize)
include h

theorem add_mod_of_le : (position + length) % 2 ^ 32 = position + length :=
  Nat.mod_eq_of_lt (h.trans_lt c.chunkSize_lt)

theorem toBuffer_eq : c.toBuffer m position length = .ok (((c.flat m).drop position).take length) := by
  rw [toBuffer, add_mod_of_le h, if_neg (Nat.not_lt_of_le h)]
  split_ifs with hzero
  · rw [hzero, take_zero]
  · obtain ⟨it, hcreate, hloop⟩ := create_whileNext hzero h
    rw [hcreate, Lib.Outcome.ok_bind, hloop, foldWhile_append, nil_append, flatMap_segments_range h]

theorem compareBuffer_eq {buffer : Bytes} (hbuffer : length ≤ buffer.length) :
    c.compareBuffer buffer m position length = .ok (decide (buffer.take length = ((c.flat m).drop position).take length)) := by
  rw [compareBuffer, add_mod_of_le h, if_neg (Nat.not_lt_of_le h)]
  split_ifs with hzero
  · rw [hzero, take_zero, take_zero, decide_eq_true rfl]
  obtain ⟨it, hcreate, hloop⟩ := create_whileNext hzero h
  have hcount : (((c.flat m).drop position).take length).length = length := by
    rw [length_take, length_drop, length_flat]
    omega
  rw [hcreate, Lib.Outcome.ok_bind, hloop, Lib.Outcome.ok_bind]
  dsimp only
  have hcompare := foldWhile_compare (m := m) (segments c.parts position (position + length)) buffer
  rw [flatMap_segments_range h, hcount] at hcompare
  rw [hcompare hbuffer]

theorem fromBuffer_eq {buffer : Bytes} (hbuffer : length ≤ buffer.length) :
    ∃ m', c.fromBuffer buffer m position length = .ok m' ∧ c.flat m' = splice (c.flat m) position (buffer.take length) ∧
      ∀ i, Elsewhere c.parts i → m' i = m i := by
  rw [fromBuffer, add_mod_of_le h, if_neg (Nat.not_lt_of_le h)]
  split_ifs with hzero
  · refine ⟨m, rfl, ?_, fun i _ ↦ rfl⟩
    rw [hzero, take_zero, splice_nil]
  obtain ⟨it, hcreate, hloop⟩ := create_whileNext hzero h
  refine ⟨storeSegments (segments c.parts position (position + length)) m buffer, ?_, ?_, ?_⟩
  · rw [hcreate, Lib.Outcome.ok_bind, hloop, Lib.Outcome.ok_bind]
    exact congrArg Except.ok (foldWhile_store _ buffer)
  · have hcount : position + length - position ≤ buffer.length := by omega
    have hstore := flatParts_storeSegments (m := m) c.follows c.apart (Nat.zero_le position)
      (Nat.le_add_right position length) h hcount
    rw [Nat.add_sub_cancel_left] at hstore
    exact hstore
  · exact fun i hi ↦ storeSegments_elsewhere c.follows (Nat.zero_le _) hi

end

/-- An iterator over a range is created, and any steps forward yield the range in pieces. It is done when it gets to the
end, and steps that are not empty get there. -/
def Iterates (c : MappedChunk) (m : ℕ → UInt8) (position length : ℕ) (ks : List ℕ) : Prop :=
  ∃ it segments more it', create position (position + length) c = .ok it ∧ pull m ks it = .ok (segments, more, it') ∧
    segments.flatten = ((c.flat m).drop position).take (it'.first - position) ∧
    position ≤ it'.first ∧ it'.first ≤ position + length ∧
    (more = false ↔ ks ≠ [] ∧ it'.first = position + length) ∧
    ((∀ k ∈ ks, 0 < k) → ks ≠ [] → length ≤ ks.length → more = false)

theorem iterates_empty (h : position < c.chunkSize) (ks : List ℕ) : Iterates c m position 0 ks := by
  obtain ⟨p, rest, hcreate, ⟨-, -, hlow, hhigh⟩, -⟩ := create_eq position h
  cases ks with
  | nil => exact ⟨_, [], true, _, hcreate, rfl, by simp⟩
  | cons k ks =>
    have hmod : (position + 0) % 2 ^ 32 = position := Nat.mod_eq_of_lt (h.trans c.chunkSize_lt)
    have hin : ¬ (position < p.position ∨ p.position + p.size ≤ position) := by omega
    have hdata : data ⟨p :: rest, position, position⟩ = .ok (p.begin + (position - p.position), 0) := by
      rw [data, atMemory, if_neg hin, Lib.Outcome.ok_bind, Nat.sub_self]
      dsimp only
      rw [Nat.min_zero]
    have hforward : forward 0 ⟨p :: rest, position, position⟩ = (false, ⟨p :: rest, position, position⟩) := by
      unfold forward
      rw [hmod, if_pos le_rfl]
    refine ⟨_, [[]], false, ⟨p :: rest, position, position⟩, hcreate, ?_, by simp⟩
    rw [pull, hdata, Lib.Outcome.ok_bind]
    dsimp only
    rw [Nat.min_zero, hforward]
    rfl

theorem iterates_range (hlen : 0 < length) (h : position + length ≤ c.chunkSize) (ks : List ℕ) :
    Iterates c m position length ks := by
  have hrange : position < position + length := by omega
  obtain ⟨it, hcreate, hstands, rfl, hlast, -⟩ := create_stands hrange h
  obtain ⟨⟨segments, more, it'⟩, hpull, hpulled⟩ := hstands.pull_eq ks
  obtain ⟨hle, hlast', hbytes, hmore, hdone, hgains⟩ := hpulled
  have hhigh : more = true → it'.first < it.first + length := by
    intro hgo
    have hlt := (hmore hgo).first_lt
    rwa [hlast', hlast] at hlt
  have hend : more = false → it'.first = it.first + length := fun hno ↦ (hdone hno).trans hlast
  refine ⟨it, segments, more, it', hcreate, hpull, hbytes, hle, ?_, ⟨fun hno ↦ ⟨?_, hend hno⟩, ?_⟩, ?_⟩
  · cases more with
    | false => exact (hend rfl).le
    | true => exact (hhigh rfl).le
  · rintro rfl
    cases hpull
    cases hno
  · rintro ⟨-, hfirst⟩
    cases more with
    | false => rfl
    | true => exact absurd hfirst (hhigh rfl).ne
  intro hks _ hcount
  cases more with
  | false => rfl
  | true =>
    have hfar : it.first + ks.length ≤ it'.first := hgains hks rfl
    have hnear := hhigh rfl
    omega

/-- The chunk is one flat array: a range is read, written and compared as the range of the array, whatever the parts are,
and an iterator over a range that does not start at its end yields it in pieces. -/
structure ActsFlat (c : MappedChunk) (m : ℕ → UInt8) (position length : ℕ) : Prop where
  read : c.toBuffer m position length = .ok (((c.flat m).drop position).take length)
  written : ∀ buffer : Bytes, length ≤ buffer.length → ∃ m', c.fromBuffer buffer m position length = .ok m' ∧
    c.flat m' = (c.flat m).take position ++ buffer.take length ++ (c.flat m).drop (position + length) ∧
    c.toBuffer m' position length = .ok (buffer.take length) ∧ ∀ i, Elsewhere c.parts i → m' i = m i
  compared : ∀ buffer : Bytes, length ≤ buffer.length → c.compareBuffer buffer m position length =
    .ok (decide (buffer.take length = ((c.flat m).drop position).take length))
  iterated : position < c.chunkSize → ∀ ks, Iterates c m position length ks

/-- Every range inside of a chunk, of any parts, acts as the range of a flat array. -/
theorem acts_flat (c : MappedChunk) (m : ℕ → UInt8) {position length : ℕ} (h : position + length ≤ c.chunkSize) :
    ActsFlat c m position length where
  read := toBuffer_eq h
  written buffer hbuffer := by
    obtain ⟨m', hwrite, hflat, helse⟩ := fromBuffer_eq h hbuffer
    have hcount : (buffer.take length).length = length := by
      rw [length_take]
      omega
    rw [splice, hcount] at hflat
    refine ⟨m', hwrite, hflat, ?_, helse⟩
    have hbefore : ((c.flat m).take position).length = position := by
      rw [length_take, length_flat]
      omega
    rw [toBuffer_eq h, hflat, append_assoc, drop_left' hbefore, take_left' hcount]
  compared buffer hbuffer := compareBuffer_eq h hbuffer
  iterated hstart ks := by
    rcases Nat.eq_zero_or_pos length with rfl | hlen
    · exact iterates_empty hstart ks
    · exact iterates_range hlen h ks

/-- Parts of two, no and three bytes, not in the order of their addresses. -/
def threeParts : MappedChunk :=
  ((empty.pushBack 10 2 (by decide) (by decide)).pushBack 7 0 (by decide) (by decide)).pushBack 3 3 (by decide) (by decide)

theorem acts_flat_across : threeParts.chunkSize = 5 ∧ ActsFlat threeParts (fun i ↦ i.toUInt8) 1 3 :=
  ⟨rfl, acts_flat threeParts _ (by decide)⟩

/-- There is no iterator over the empty range at the end of a chunk. -/
theorem acts_flat_end : threeParts.chunkSize = 5 ∧ ChunkIterator.create 5 5 threeParts =
    .error "Chunk::at_position(...) tried to get Chunk position out of range." := ⟨rfl, rfl⟩

end MappedChunk

end LibTorrent
