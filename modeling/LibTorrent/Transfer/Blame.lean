import LibTorrent.Transfer.Sound

namespace LibTorrent

open Lib.Memory Lib.Outcome List

namespace Assembly

variable {N : Prop} {S : ℕ → List ℕ} {d : Assembly} {b t l k p : ℕ} {w : World} {x : BlockTransfer}

def OneLeader (d : Assembly) (b : ℕ) : Prop := ∀ t x, d.world.heap t = some x → x.block = some b →
  x.state = .leader → (d.world.blocks b).leader = some t

def LeaderAhead (d : Assembly) (b : ℕ) : Prop := ∀ t x l y, d.world.Has b t → d.world.heap t = some x →
  x.state ≠ .leader → x.state ≠ .erased → (d.world.blocks b).leader = some l → d.world.heap l = some y →
  x.position ≤ y.position

def LeaderBytes (d : Assembly) (b : ℕ) : Prop := ∀ l y, (d.world.blocks b).leader = some l → d.world.heap l = some y →
  d.received l = load d.memory (d.world.blocks b).piece.offset.toNat y.position.toNat

def WaitingBytes (d : Assembly) (b : ℕ) : Prop := ∀ t x, t ∈ (d.world.blocks b).transfers → d.world.heap t = some x →
  x.state = .notLeader → d.received t = load d.memory (d.world.blocks b).piece.offset.toNat x.position.toNat

theorem Sound.leaderAhead (h : Sound N S k d) (b : ℕ) : d.LeaderAhead b := by
  intro t x l y ht hx hleader herased hl hy
  obtain ⟨φ, hφ⟩ := h.flowing.consistent
  obtain ⟨x', hx', _, _, hfits⟩ := hφ.tracks.alive t fun hc ↦ by
    have hhome := hφ.tracks.home_of_has ht
    rw [hc] at hhome
    cases hhome
  obtain rfl := Option.mem_unique hx hx'
  rcases ht with ht | ht
  · rw [(h.flowing.lined b).idle t x ht hx]
    exact UInt32.le_iff_toNat_le.mpr (Nat.zero_le _)
  have hactive := ((hφ.tracks.placed t).transfers b).mp ht
  have hstate : x.state = .notLeader := by
    cases hphase : φ t with
    | waiting c =>
      rw [hphase] at hfits
      exact hfits
    | leading c =>
      rw [hphase] at hfits
      exact absurd hfits hleader
    | completed c | stale c =>
      rw [hphase] at hfits
      exact absurd hfits.1 hleader
    | dissimilar c =>
      rw [hphase] at hfits
      exact absurd hfits herased
    | free | queued c | detached | lost =>
      rw [hphase] at hactive
      cases hactive
  obtain ⟨l', hl', hbehind⟩ := (h.flowing.lined b).behind t x ht hx hstate
  obtain rfl := Option.mem_unique hl hl'
  exact UInt32.le_iff_toNat_le.mpr (hbehind y hy)

theorem Sound.leaderBytes (h : Sound N S k d) (hb : (d.world.blocks b).state ≠ .completed ∨ d.attempt = 0) :
    d.LeaderBytes b := by
  intro l y hl hy
  refine (h.flowing.lined b).filled l y ((h.flowing.lined b).led l hl) hy (.inr ⟨hl, fun hc ↦ ?_⟩)
  exact .inl (hb.resolve_left fun hopen ↦ hopen hc)

theorem Sound.oneLeader (h : Sound N S k d) (b : ℕ) : d.OneLeader b := by
  intro t x hx hblock hs
  obtain ⟨φ, hφ⟩ := h.flowing.consistent
  obtain ⟨x', hx', _, _, hfits⟩ := hφ.tracks.alive t fun hc ↦ by
    have hshows := (hφ.tracks.placed t).shows
    rw [hx, hc] at hshows
    exact hshows.2.2
  obtain rfl := Option.mem_unique hx hx'
  refine ((hφ.tracks.placed t).leader b).mpr (.inl ?_)
  rcases hφ.tracks.phase_of_block hx hblock with hphase | hphase | hphase
  · rw [hphase] at hfits
    cases hfits.symm.trans hs
  · rw [hphase] at hfits
    cases hfits.symm.trans hs
  · exact hphase

/-- In every run the transfers of a block are in order, and the checks of the block hold. The bytes
of a completed block may be those of another data set while a failed piece is tried again. -/
theorem run_leaders (layout : BlockLayout) (memory : ℕ → UInt8) (counters : ℕ → ℕ) (connected : ℕ → Bool)
    (es : List Event) : Ensures blockFault (run es (start layout memory counters connected)) fun d ↦
      ∀ b, d.OneLeader b ∧ d.LeaderAhead b ∧
        ((d.world.blocks b).state ≠ .completed ∨ d.attempt = 0 → d.LeaderBytes b) ∧ d.WaitingBytes b := by
  have hstep : ∀ e (d : Assembly), (∃ S k, Sound False S k d) →
      Works (step e d) fun d' ↦ ∃ S k, Sound False S k d' := fun e d ⟨S, k, h⟩ ↦ sound_step e h False.elim
  refine (ensures_forEach_inv hstep es ⟨_, _, sound_start layout memory counters connected⟩).mono fun d ⟨S, k, h⟩ b ↦ ?_
  refine ⟨h.oneLeader b, h.leaderAhead b, h.leaderBytes, fun t x ht hx hs ↦ ?_⟩
  exact (h.flowing.lined b).filled t x ht hx (.inl hs)

def oneByte : BlockLayout := ⟨[⟨0, 0, 1⟩], by decide, by decide, by decide⟩

def round (p : ℕ) (c : UInt8) : List Event :=
  [.request (.delegate p [0]) rfl, .request (.downloading p ⟨0, 0, 1⟩) rfl, .receive p [c]]

theorem run_leaders_replaced : ∃ d, run (round 0 7 ++ [.hashFailed, .hashFailed] ++ round 1 7 ++
      [.hashFailed, .hashFailed] ++ round 2 9 ++ [.hashFailed])
      (start oneByte (fun _ ↦ 0) (fun _ ↦ 0) fun _ ↦ true) = .ok d ∧ ¬ d.LeaderBytes 0 := by
  refine ⟨_, rfl, fun h ↦ ?_⟩
  exact absurd (h 2 _ rfl rfl) (by decide)

def SentAll (d : Assembly) (p : ℕ) : Prop := ∀ b < d.world.size, ∃ l x, (d.world.blocks b).leader = some l ∧
  d.world.heap l = some x ∧ x.peerInfo = some p ∧ d.received l = d.data b

def SentOther (d : Assembly) (p : ℕ) : Prop := ∃ b < d.world.size, ∃ t ∈ (d.world.blocks b).transfers, ∃ x s,
  d.world.heap t = some x ∧ x.peerInfo = some p ∧ d.recorded b t = some s ∧ s ≠ d.data b

theorem Checking.completed (h : d.Checking) (hb : b < d.world.size) : (d.world.blocks b).state = .completed :=
  of_decide_eq_true (all_eq_true.mp h.2 b (mem_range.mpr hb))

variable {bs ts : List ℕ}

theorem allFrom_true {o : Option ℕ} (h : allFrom w o bs = .ok true) (hb : b ∈ bs)
    (ht : t ∈ (w.blocks b).transfers) (hx : w.heap t = some x) : x.peerInfo = o := by
  induction bs with
  | nil => cases hb
  | cons c bs ih =>
    rw [allFrom] at h
    cases hfind : findIf (fun x ↦ x.peerInfo ≠ o) (w.blocks c).transfers w with
    | error e =>
      rw [hfind] at h
      cases h
    | ok found =>
      cases found with
      | some s =>
        rw [hfind] at h
        cases h
      | none =>
        rw [hfind] at h
        rcases mem_cons.mp hb with rfl | hb
        · have hnone := (safe_findIf).of_ok hfind rfl t ht x hx
          simpa using hnone
        · exact ih h hb

theorem firstPeer_cons (ht : (w.blocks b).transfers = l :: ts) (hx : w.heap l = some x) :
    firstPeer w (b :: bs) = .ok (x.peerInfo, bs) := by
  rw [firstPeer, ht]
  dsimp only
  rw [World.get_eq hx, ok_bind]

theorem singlePeer_some (hfull : ∀ b < w.size, (w.blocks b).transfers ≠ []) (h : singlePeer w = .ok (some p)) :
    (∃ t ts x, (w.blocks 0).transfers = t :: ts ∧ w.heap t = some x ∧ x.peerInfo = some p) ∧
      ∀ b < w.size, b ≠ 0 → ∀ t ∈ (w.blocks b).transfers, ∀ x, w.heap t = some x → x.peerInfo = some p := by
  unfold singlePeer at h
  cases hsize : w.size with
  | zero =>
    rw [hsize] at h
    cases h
  | succ n =>
    rw [hsize, range_succ_eq_map] at h
    obtain ⟨t, ts, hts⟩ := exists_cons_of_ne_nil (hfull 0 (by omega))
    cases hx : w.heap t with
    | none =>
      rw [firstPeer, hts] at h
      dsimp only at h
      rw [World.get, hx] at h
      cases h
    | some x =>
      rw [firstPeer_cons hts hx, ok_bind] at h
      dsimp only at h
      cases hall : allFrom w x.peerInfo ((List.range n).map Nat.succ) with
      | error e =>
        rw [hall] at h
        cases h
      | ok all =>
        rw [hall, ok_bind] at h
        cases all with
        | false => cases h
        | true =>
          have hp : x.peerInfo = some p := Except.ok.inj h
          refine ⟨⟨t, ts, x, hts, hx, hp⟩, fun b hb hne s hs y hy ↦ ?_⟩
          rw [← hp]
          refine allFrom_true hall (mem_map.mpr ⟨b - 1, mem_range.mpr ?_, ?_⟩) hs hy
          · omega
          · exact Nat.succ_pred_eq_of_ne_zero hne

theorem Sound.stale_nil (h : Sound N S k d) (hcheck : d.Checking) (hb : b < d.world.size)
    (hp : ∀ t ∈ (d.world.blocks b).transfers, ∀ x, d.world.heap t = some x → x.peerInfo = some p) : k = 0 := by
  obtain ⟨φ, hφ⟩ := h.flowing.consistent
  obtain ⟨l, x, hl, hx, _, heq⟩ := (h.flowing.lined b).transfers_eq hφ.tracks (hcheck.completed hb)
  rw [← h.stale b hb, length_eq_zero_iff]
  refine eq_nil_iff_forall_not_mem.mpr fun t ht ↦ ?_
  have htm : t ∈ (d.world.blocks b).transfers := by
    rw [heq]
    exact mem_append_left _ ht
  have hlm := (h.flowing.lined b).led l hl
  obtain ⟨y, _, hy, _⟩ := h.flowing.alive htm
  rcases (h.flowing.lined b).peers t l y x (.inr htm) (.inr hlm) hy hx (by rw [hp t htm y hy, hp l hlm x hx]) with hc | hc
  · rw [hp t htm y hy] at hc
    cases hc
  · exact h.flowing.stale_not_leader ht (hc ▸ hl)

theorem Sound.sentAll (h : Sound N S k d) (hcheck : d.Checking)
    (hfew : 2 ≤ d.world.size ∨ (d.world.blocks 0).transfers.length = 1) (hsingle : singlePeer d.world = .ok (some p)) :
    d.SentAll p := by
  obtain ⟨φ, hφ⟩ := h.flowing.consistent
  have htransfers : ∀ b < d.world.size, ∃ l x, (d.world.blocks b).leader = some l ∧ d.world.heap l = some x ∧
      (d.world.blocks b).transfers = S b ++ [l] := fun b hb ↦ by
    obtain ⟨l, x, hl, hx, _, heq⟩ := (h.flowing.lined b).transfers_eq hφ.tracks (hcheck.completed hb)
    exact ⟨l, x, hl, hx, heq⟩
  obtain ⟨⟨t, ts, y, hts, hy, hyp⟩, hrest⟩ := singlePeer_some (fun b hb ↦ by
    obtain ⟨l, x, _, _, heq⟩ := htransfers b hb
    rw [heq]
    exact append_ne_nil_of_right_ne_nil _ (cons_ne_nil _ _)) hsingle
  have hk : 0 < d.world.size → k = 0 := fun hpos ↦ by
    rcases hfew with hsize | hlen
    · exact h.stale_nil hcheck hsize fun t ht x hx ↦ hrest 1 hsize one_ne_zero t ht x hx
    obtain ⟨l, x, _, _, heq⟩ := htransfers 0 hpos
    rw [heq, length_append, length_singleton, h.stale 0 hpos] at hlen
    omega
  intro b hb
  obtain ⟨l, x, hl, hx, heq⟩ := htransfers b hb
  have hk := hk (Nat.zero_lt_of_lt hb)
  refine ⟨l, x, hl, hx, ?_, (h.flowing.data_eq (.inr hk) (hcheck.completed hb) hl hx).symm⟩
  by_cases hzero : b = 0
  · subst hzero
    rw [eq_nil_of_length_eq_zero ((h.stale 0 hb).trans hk), nil_append, hts] at heq
    obtain rfl := (List.cons.inj heq).1
    rw [← Option.mem_unique hy hx]
    exact hyp
  · exact hrest b hb hzero l ((h.flowing.lined b).led l hl) x hx

/-- A transfer of a block has a record if and only if its index is valid, and it tells what the
transfer has received. -/
theorem Sound.recorded_eq (h : Sound True S k d) (ht : t ∈ (d.world.blocks b).transfers)
    (hi : d.failedIndex t ≠ invalidIndex) : b < d.world.size ∧ d.recorded b t = some (d.received t) := by
  obtain ⟨φ, hφ⟩ := h.flowing.consistent
  have hnoted := h.noted trivial
  obtain ⟨c, hc, hor⟩ := hnoted.others t hi
  have hhas : d.world.Has c t := by
    rcases hor with hs | ⟨_, hl⟩
    · obtain ⟨new, hsplit, _⟩ := (h.flowing.lined c).order
      refine .inr ?_
      rw [hsplit]
      exact mem_append_left _ hs
    · exact .inr ((h.flowing.lined c).led t hl)
  obtain rfl := hφ.tracks.apart c t hhas (.inr ht)
  refine ⟨hc, ?_⟩
  rcases hor with hs | ⟨ha, hl⟩
  · exact hnoted.stale c hc t hs
  · exact hnoted.retried ha c hc t hl

theorem Sound.index_ne_iff {L : BlockFailed} (h : Sound True S k d) (hL : d.failedList b = some L)
    (ht : t ∈ (d.world.blocks b).transfers) :
    ((d.failedIndex t).toNat ≠ (L.entries.findIdx fun e ↦ e.1 = d.data b) ∧ d.failedIndex t ≠ invalidIndex) ↔
      ∃ s, d.recorded b t = some s ∧ s ≠ d.data b := by
  rw [BlockFailed.findIdx_eq]
  by_cases hi : d.failedIndex t = invalidIndex
  · refine iff_of_false (fun hc ↦ hc.2 hi) fun ⟨s, hs, _⟩ ↦ ?_
    exact (recorded_inv hs).1 hi
  have hrec := (h.recorded_eq ht hi).2
  obtain ⟨_, L', hL', hs⟩ := recorded_inv hrec
  obtain rfl := Option.mem_unique hL hL'
  obtain ⟨hlt, hget⟩ := List.getElem?_eq_some_iff.mp hs
  have hsame : (d.failedIndex t).toNat = L.sets.idxOf (d.data b) ↔ d.received t = d.data b := by
    constructor
    · intro he
      have hlt' : L.sets.idxOf (d.data b) < L.sets.length := he ▸ hlt
      rw [← hget, ← getElem_idxOf hlt']
      congr 1
    intro he
    rw [← he, ← hget]
    exact (((h.noted trivial).distinct b L hL).idxOf_getElem _ hlt).symm
  constructor
  · exact fun ⟨hne, _⟩ ↦ ⟨d.received t, hrec, fun hc ↦ hne (hsame.mpr hc)⟩
  intro ⟨s, hs', hne⟩
  obtain rfl := Option.mem_unique hrec hs'
  exact ⟨fun hc ↦ hne (hsame.mp hc), hi⟩

theorem badTransfers_eq {n : ℕ} (halive : ∀ t ∈ ts, ∃ x p, d.world.heap t = some x ∧ x.peerInfo = some p)
    (B : Finset ℕ) : ∃ B', badTransfers d n ts B = .ok B' ∧ ∀ p, p ∈ B' ↔ p ∈ B ∨ ∃ t ∈ ts, ∃ x,
      d.world.heap t = some x ∧ x.peerInfo = some p ∧ (d.failedIndex t).toNat ≠ n ∧ d.failedIndex t ≠ invalidIndex := by
  induction ts generalizing B with
  | nil => exact ⟨B, rfl, fun p ↦ by simp⟩
  | cons t ts ih =>
    obtain ⟨x, q, hx, hq⟩ := halive t mem_cons_self
    have hrest : ∀ t ∈ ts, ∃ x p, d.world.heap t = some x ∧ x.peerInfo = some p := fun s hs ↦
      halive s (mem_cons_of_mem t hs)
    rw [badTransfers, World.get_eq hx, ok_bind, hq]
    split_ifs with hbad
    · obtain ⟨B', hB', hmem⟩ := ih hrest (insert q B)
      refine ⟨B', hB', fun p ↦ (hmem p).trans ?_⟩
      rw [Finset.mem_insert]
      constructor
      · rintro ((rfl | hp) | ⟨s, hs, hex⟩)
        · exact .inr ⟨t, mem_cons_self, x, hx, hq, hbad⟩
        · exact .inl hp
        · exact .inr ⟨s, mem_cons_of_mem t hs, hex⟩
      rintro (hp | ⟨s, hs, y, hy, hyp, hex⟩)
      · exact .inl (.inr hp)
      rcases mem_cons.mp hs with rfl | hs
      · obtain rfl := Option.mem_unique hx hy
        exact .inl (.inl (Option.mem_unique hyp hq))
      · exact .inr ⟨s, hs, y, hy, hyp, hex⟩
    · obtain ⟨B', hB', hmem⟩ := ih hrest B
      refine ⟨B', hB', fun p ↦ (hmem p).trans (or_congr_right ?_)⟩
      constructor
      · intro ⟨s, hs, hex⟩
        exact ⟨s, mem_cons_of_mem t hs, hex⟩
      intro ⟨s, hs, y, hy, hyp, hex⟩
      rcases mem_cons.mp hs with rfl | hs
      · exact absurd hex hbad
      · exact ⟨s, hs, y, hy, hyp, hex⟩

theorem Sound.badPeers_eq (h : Sound True S k d) (hbs : ∀ b ∈ bs, d.failedList b ≠ none) (B : Finset ℕ) :
    ∃ B', badPeers d bs B = .ok B' ∧ ∀ p, p ∈ B' ↔ p ∈ B ∨ ∃ b ∈ bs, ∃ t ∈ (d.world.blocks b).transfers, ∃ x s,
      d.world.heap t = some x ∧ x.peerInfo = some p ∧ d.recorded b t = some s ∧ s ≠ d.data b := by
  induction bs generalizing B with
  | nil => exact ⟨B, rfl, fun p ↦ by simp⟩
  | cons b bs ih =>
    obtain ⟨L, hL⟩ := Option.ne_none_iff_exists'.mp (hbs b mem_cons_self)
    obtain ⟨B₁, hB₁, hmem₁⟩ := badTransfers_eq
      (fun t ht ↦ h.flowing.alive ht) B
    obtain ⟨B₂, hB₂, hmem₂⟩ := ih (fun c hc ↦ hbs c (mem_cons_of_mem b hc)) B₁
    refine ⟨B₂, ?_, fun p ↦ (hmem₂ p).trans ?_⟩
    · rw [badPeers, hL]
      dsimp only
      rw [hB₁, ok_bind, hB₂]
    rw [hmem₁ p, or_assoc]
    refine or_congr_right ?_
    constructor
    · rintro (⟨t, ht, x, hx, hp, hex⟩ | ⟨c, hc, hex⟩)
      · obtain ⟨s, hs, hne⟩ := (h.index_ne_iff hL ht).mp hex
        exact ⟨b, mem_cons_self, t, ht, x, s, hx, hp, hs, hne⟩
      · exact ⟨c, mem_cons_of_mem b hc, hex⟩
    rintro ⟨c, hc, t, ht, x, s, hx, hp, hs, hne⟩
    rcases mem_cons.mp hc with rfl | hc
    · exact .inl ⟨t, ht, x, hx, hp, (h.index_ne_iff hL ht).mpr ⟨s, hs, hne⟩⟩
    · exact .inr ⟨c, hc, t, ht, x, s, hx, hp, hs, hne⟩

theorem Sound.reported (h : Sound True S k d) (hcheck : d.Checking) :
    ∃ B, (if d.failed ≠ 0 then markFailedPeers d else .ok ∅) = .ok B ∧ ∀ p, p ∈ B ↔ d.SentOther p := by
  obtain ⟨φ, hφ⟩ := h.flowing.consistent
  have hnoted := h.noted trivial
  by_cases hfailed : d.failed = 0
  · refine ⟨∅, if_neg (not_not.mpr hfailed), fun p ↦ iff_of_false (Finset.notMem_empty p) ?_⟩
    rintro ⟨b, hb, t, ht, x, s, _, _, hs, _⟩
    have hcount := hnoted.count
    rw [hfailed] at hcount
    have hattempt : d.attempt = 0 := by
      by_contra hc
      rw [if_neg hc] at hcount
      exact absurd hcount (by simp)
    have hk : k = 0 := by
      rw [if_pos hattempt] at hcount
      exact hcount.symm
    obtain ⟨_, L, hL, _⟩ := recorded_inv hs
    rw [h.first hattempt hk b hb] at hL
    cases hL
  · have hlists : ∀ b ∈ List.range d.world.size, d.failedList b ≠ none := by
      intro b hb
      have hb := mem_range.mp hb
      obtain ⟨l, x, hl, hx, _, heq⟩ := (h.flowing.lined b).transfers_eq hφ.tracks (hcheck.completed hb)
      have hsome : ∃ t, d.recorded b t = some (d.received t) := by
        by_cases hattempt : d.attempt = 0
        · have hpos : (S b).length ≠ 0 := by
            rw [h.stale b hb]
            intro hk
            have hcount := hnoted.count
            rw [if_pos hattempt, hk] at hcount
            exact hfailed (UInt32.toNat_inj.mp hcount)
          obtain ⟨t, ts, hts⟩ := exists_cons_of_ne_nil (ne_nil_of_length_pos (Nat.pos_of_ne_zero hpos))
          exact ⟨t, hnoted.stale b hb t (by rw [hts]; exact mem_cons_self)⟩
        · exact ⟨l, hnoted.retried hattempt b hb l hl⟩
      obtain ⟨t, ht⟩ := hsome
      obtain ⟨_, L, hL, _⟩ := recorded_inv ht
      simp [hL]
    obtain ⟨B, hB, hmem⟩ := h.badPeers_eq hlists ∅
    refine ⟨B, by rw [if_pos hfailed]; exact hB, fun p ↦ (hmem p).trans ?_⟩
    simp only [SentOther, mem_range, Finset.notMem_empty, false_or]

theorem countFinished_eq {n : ℕ} (h : ∀ b < n, Block.isFinished b w = .ok true) : Block.countFinished w n = .ok n := by
  induction n with
  | zero => rfl
  | succ n ih =>
    rw [Block.countFinished, h n (Nat.lt_succ_self n), ok_bind, ih fun b hb ↦ h b (Nat.lt_succ_of_lt hb)]
    rfl

/-- At a check all blocks are found finished, and `hash_succeeded` comes to the end of the list with its report. -/
theorem Sound.hashSucceeded_eq (h : Sound True S k d) (hcheck : d.Checking) :
    ∃ B, d.hashSucceeded = (d.lift BlockList.destroy).map (Prod.mk B) ∧ ∀ p, p ∈ B ↔ d.SentOther p := by
  obtain ⟨B, hB, hmem⟩ := h.reported hcheck
  obtain ⟨φ, hφ⟩ := h.flowing.consistent
  have hfinished : allFinished d.world = .ok true := by
    rw [allFinished, countFinished_eq fun b hb ↦ ?_, ok_bind, decide_eq_true rfl]
    obtain ⟨l, x, hl, hx, hdone, -⟩ := (h.flowing.lined b).transfers_eq hφ.tracks (hcheck.completed hb)
    simp only [Block.isFinished, hl, World.get_eq hx, Except.map, hdone]
  refine ⟨B, ?_, hmem⟩
  rw [hashSucceeded, hfinished, ok_bind, if_neg (by simp)]
  dsimp only
  split_ifs at hB ⊢
  all_goals
    rw [hB]
    cases d.lift BlockList.destroy with
    | ok | error => rfl

def CanCount (e : Event) (d : Assembly) : Prop := e = .hashFailed → d.failed ≠ 0xFFFFFFFF

/-- Whenever the hash is checked: a peer that is disconnected on failure has sent all blocks, if
there are several of them or this is the first attempt; and the peers reported on success are
those whose recorded data, which is what they have sent, is not in the chunk. -/
theorem run_blame (layout : BlockLayout) (memory : ℕ → UInt8) (counters : ℕ → ℕ) (connected : ℕ → Bool)
    (es : List Event) (hes : Along step CanCount es (start layout memory counters connected)) :
    Ensures blockFault (run es (start layout memory counters connected)) fun d ↦ d.Checking →
      (∀ p, singlePeer d.world = .ok (some p) →
        2 ≤ d.world.size ∨ (d.world.blocks 0).transfers.length = 1 → d.SentAll p) ∧
      (∃ B, d.hashSucceeded = (d.lift BlockList.destroy).map (Prod.mk B) ∧ ∀ p, p ∈ B ↔ d.SentOther p) ∧
      ∀ b, ∀ t ∈ (d.world.blocks b).transfers, ∀ s, d.recorded b t = some s → s = d.received t := by
  have hstep : ∀ e (d : Assembly), (∃ S k, Sound True S k d) → CanCount e d →
      Works (step e d) fun d' ↦ ∃ S k, Sound True S k d' := fun e d ⟨S, k, h⟩ hcan ↦
    sound_step e h fun _ ↦ hcan
  refine (ensures_forEach_along hstep es ⟨_, _, sound_start layout memory counters connected⟩ hes).mono ?_
  intro d ⟨S, k, h⟩ hcheck
  refine ⟨fun p hp hfew ↦ h.sentAll hcheck hfew hp, h.hashSucceeded_eq hcheck, fun b t ht s hs ↦ ?_⟩
  have hrec := (h.recorded_eq ht (recorded_inv hs).1).2
  exact Option.mem_unique hs hrec

theorem run_blame_once : Along step CanCount (round 0 7 ++ [.hashFailed])
      (start oneByte (fun _ ↦ 0) (fun _ ↦ 0) fun _ ↦ true) ∧
    Ensures blockFault (run (round 0 7 ++ [.hashFailed]) (start oneByte (fun _ ↦ 0) (fun _ ↦ 0) fun _ ↦ true))
      fun d ↦ d.Checking →
        (∀ p, singlePeer d.world = .ok (some p) →
          2 ≤ d.world.size ∨ (d.world.blocks 0).transfers.length = 1 → d.SentAll p) ∧
        (∃ B, d.hashSucceeded = (d.lift BlockList.destroy).map (Prod.mk B) ∧ ∀ p, p ∈ B ↔ d.SentOther p) ∧
        ∀ b, ∀ t ∈ (d.world.blocks b).transfers, ∀ s, d.recorded b t = some s → s = d.received t := by
  have hes : Along step CanCount (round 0 7 ++ [.hashFailed])
      (start oneByte (fun _ ↦ 0) (fun _ ↦ 0) fun _ ↦ true) := by
    refine ⟨nofun, fun d₁ h₁ ↦ ⟨nofun, fun d₂ h₂ ↦ ⟨nofun, fun d₃ h₃ ↦ ⟨fun _ ↦ ?_, fun _ _ ↦ trivial⟩⟩⟩⟩
    cases h₁
    cases h₂
    cases h₃
    decide
  exact ⟨hes, run_blame oneByte (fun _ ↦ 0) (fun _ ↦ 0) (fun _ ↦ true) (round 0 7 ++ [.hashFailed]) hes⟩

/-- The second peer has sent the only block, and the first one is reported. -/
theorem run_blame_stale : ∃ d, run (round 0 7 ++ [.hashFailed, .hashFailed] ++ round 1 8)
      (start oneByte (fun _ ↦ 0) (fun _ ↦ 0) fun _ ↦ true) = .ok d ∧ d.Checking ∧
      singlePeer d.world = .ok (some 0) ∧ ¬ d.SentAll 0 := by
  refine ⟨_, rfl, by decide, rfl, fun h ↦ ?_⟩
  obtain ⟨l, x, hl, hx, hp, _⟩ := h 0 (by decide)
  cases hl
  cases hx
  cases hp

end Assembly

end LibTorrent
