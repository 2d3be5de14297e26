import LibTorrent.Transfer.Requests

namespace LibTorrent

open Function Lib.Outcome List Option RequestList World

variable {H C : Prop} {w w' : World} {φ : ℕ → Phase} {b p t : ℕ} {x : BlockTransfer}

theorem Accounts.enqueue (h : Accounts H C w.slots w.buckets w φ) (ha : Allocated H (.queued b) p w φ w')
    (hb : b < w.size) (hpresent : w.present = true) : Consistent H C (w'.setRequests p
      ((w'.requests p).setQueue .queued ((w'.requests p).queues .queued ++ [w.next]))) := by
  have hq : (((w.requests p).setQueue .queued ((w.requests p).queues .queued ++ [w.next])).queues .queued).Perm
      ([w.next] ++ (w.requests p).queues .queued) := by
    simp [setQueue]
  have hback : ((w.requests p).setQueue .queued ((w.requests p).queues .queued ++ [w.next])).setQueue .queued
      ((w.requests p).queues .queued) = w.requests p := by simp [setQueue]
  have hs := slots_setQueue hq
  have hbk := buckets_setQueue hq
  rw [ha.kept.requests_eq]
  refine ⟨update φ w.next (.queued b), ?_⟩
  rw [slots_setRequests, buckets_setRequests, ha.kept.slots, ha.kept.buckets]
  refine (h.allocate ha trivial (by simp [Phase.Leftover]) (fun c hc ↦ ?_) hs (fun t ht ↦ ?_) (fun t ht ↦ ?_)
    fun hn ↦ ?_).of_requests _
  · cases hc
    exact ⟨hb, hpresent⟩
  · exact (mem_cons.mp (hbk.mem_iff.mp ht)).symm
  · exact hbk.mem_iff.mpr (mem_cons_of_mem _ ht)
  · exact absurd (hbk.mem_iff.mpr mem_cons_self) hn

theorem ensures_delegate {bs : List ℕ} (h : Consistent H C w) (hbs : ∀ b ∈ bs, b < w.size)
    (hpresent : w.present = true)
    (hroom : H → ∀ b ∈ bs, (w.blocks b).notStalled.toNat + bs.length < 2 ^ 32) :
    Safely H (delegate p bs w) (Consistent H C) := by
  induction bs generalizing w with
  | nil => exact h
  | cons b bs ih =>
    have hskip : Safely H (delegate p bs w) (Consistent H C) := by
      refine ih h (fun c hc ↦ hbs c (mem_cons_of_mem b hc)) hpresent fun hH c hc ↦ ?_
      have := hroom hH c (mem_cons_of_mem b hc)
      rw [length_cons] at this
      omega
    obtain ⟨φ, hφ⟩ := h
    refine (ensures_isFinished hφ.tracks).bind fun f _ ↦ ?_
    split_ifs
    · exact hskip
    refine (ensures_insert hφ.tracks hφ.balanced fun hH ↦ ?_).bind fun ⟨o, w₁⟩ hins ↦ ?_
    · have := hroom hH b mem_cons_self
      rw [length_cons] at this
      omega
    rcases hins with hins | ⟨ho, ha, hcount⟩
    · cases hins
      exact hskip
    dsimp only at ho ha hcount ⊢
    rw [ho]
    have hsize := ha.kept.size
    refine ih ?_ (fun c hc ↦ ?_) ?_ fun hH c hc ↦ ?_
    · exact hφ.enqueue ha (hbs b mem_cons_self) hpresent
    · exact hsize ▸ hbs c (mem_cons_of_mem b hc)
    · exact ha.kept.present.trans hpresent
    have h₁ := hroom hH c (mem_cons_of_mem b hc)
    have h₂ := hcount c
    rw [length_cons] at h₁
    simp only [World.setRequests, blocks_setPeer]
    omega

/-- After `downloading`, a transfer whose length was wrong is in progress without its block. -/
def AfterDownloading (H C : Prop) (p : ℕ) (r : RequestList.Started × World) : Prop :=
  match r.1 with
  | .wanted | .unwanted => Consistent H C r.2
  | .wrongLength => ∃ t φ, (r.2.requests p).transfer = some t ∧
    Accounts H C r.2.slots (update r.2.buckets p (t :: r.2.buckets p)) r.2 φ

variable {piece : Piece} {v : World} {l : List ℕ}

theorem ensures_downloadingError (h : Accounts H C (update w.slots p (w.buckets p)) w.buckets w φ) :
    Safely H (downloadingError p piece w) (AfterDownloading H C p) := by
  refine (ensures_createDummy h.tracks h.balanced).bind fun ⟨t, w₁⟩ ⟨ht, ha⟩ ↦ ?_
  dsimp only at ht ha ⊢
  refine .ok ⟨update φ w.next .detached, ?_⟩
  rw [slots_setRequests, buckets_setRequests, ha.kept.requests_eq, ha.kept.slots, ha.kept.buckets, ht]
  have hall := h.allocate ha (s := w.next :: w.buckets p) trivial (by simp [Phase.Leftover])
    (fun c hc ↦ by simp [Phase.home] at hc) (by simp) (fun t ht ↦ .inl ht) (fun t ht ↦ ht) (fun _ ↦ by simp)
  rw [update_idem] at hall
  exact hall.of_requests _

namespace RequestList

variable {r : RequestList} {i : Bucket}

theorem buckets_prepareProcessUnordered : (prepareProcessUnordered r t).buckets.Perm r.buckets := by
  have hmove := buckets_moveTo (r := r) (i := .queued) (j := .unordered)
    (takeWhile_append_dropWhile (p := (· ≠ t))).symm
  rw [prepareProcessUnordered]
  split_ifs
  · exact hmove
  · exact hmove

theorem mem_prepareProcessUnordered (ht : t ∈ r.queues .queued) :
    t ∈ (prepareProcessUnordered r t).queues .queued := by
  have hdrop : t ∈ (r.queues .queued).dropWhile (· ≠ t) := by
    rw [← takeWhile_append_dropWhile (l := r.queues .queued), mem_append] at ht
    refine ht.resolve_left fun hc ↦ ?_
    simpa using mem_takeWhile_imp hc
  rw [prepareProcessUnordered]
  split_ifs <;> simpa [moveTo, setQueue] using hdrop

theorem buckets_takeFrom (ht : t ∈ r.queues i) :
    r.buckets.Perm (t :: (takeFrom r i t).buckets) ∧ (takeFrom r i t).transfer = some t := by
  have hout : ∀ r' : RequestList, r'.buckets.Perm r.buckets → t ∈ r'.queues i →
      r.buckets.Perm (t :: { r'.setQueue i ((r'.queues i).erase t) with transfer := some t }.buckets) := fun r' hp hmem ↦
    hp.symm.trans (buckets_setQueue (l := [t]) (perm_cons_erase hmem))
  refine ⟨?_, rfl⟩
  cases i with
  | queued =>
    by_cases hhead : (r.queues .queued).head? = some t
    · simpa [takeFrom, hhead] using hout r (.refl _) ht
    · simpa [takeFrom, hhead] using hout _ buckets_prepareProcessUnordered (mem_prepareProcessUnordered ht)
  | unordered =>
    by_cases hpos : (r.queues .unordered).idxOf t < r.lastUnorderedPosition
    · have := hout { r with lastUnorderedPosition := r.lastUnorderedPosition - 1 } (.refl _) ht
      simpa [takeFrom, hpos] using this
    · simpa [takeFrom, hpos] using hout r (.refl _) ht
  | stalled | choked => exact hout r (.refl _) ht

end RequestList

theorem ensures_findIfInAny {f : BlockTransfer → Bool} {l : List Bucket} (hr : ∀ t ∈ r.buckets, w.heap t ≠ none) :
    Safely H (findIfInAny r f w l) fun o ↦ ∀ i t, o = some (i, t) → t ∈ r.queues i := by
  induction l with
  | nil => simp [findIfInAny]
  | cons i l ih =>
    refine (ensures_findIf fun t ht ↦ hr t (mem_buckets.mpr ⟨i, ht⟩)).bind fun o ho ↦ ?_
    cases o with
    | none => exact ih
    | some t =>
      intro j s hjs
      cases hjs
      exact (ho t rfl).1

theorem Accounts.alive {S B : ℕ → List ℕ} (h : Accounts H C S B w φ) (ht : t ∈ S p) :
    ∃ x, w.heap t = some x ∧ x.block = (φ t).block ∧ (φ t).Fits x := by
  obtain ⟨x, hx, -, hb, hf⟩ := h.tracks.alive t fun hfree ↦ by
    have := h.held p t ht
    rw [hfree] at this
    exact this
  exact ⟨x, hx, hb, hf⟩

theorem Accounts.takeFrom (h : Accounts H C w.slots w.buckets w φ) (hnone : (w.requests p).transfer = none)
    (ht : t ∈ (w.requests p).queues i) (hv : v = w.setRequests p (RequestList.takeFrom (w.requests p) i t)) :
    Accounts H C v.slots (update v.buckets p (t :: v.buckets p)) v φ ∧ v.slots p = t :: v.buckets p := by
  obtain ⟨hperm, htr⟩ := RequestList.buckets_takeFrom ht
  have hslots : (RequestList.takeFrom (w.requests p) i t).slots =
      t :: (RequestList.takeFrom (w.requests p) i t).buckets := by rw [RequestList.slots, htr]; rfl
  have hold : w.slots p = w.buckets p := by rw [World.slots, RequestList.slots, hnone]; rfl
  have hvs := slots_setRequests (w := w) (p := p) (r := RequestList.takeFrom (w.requests p) i t)
  have hvb := buckets_setRequests (w := w) (p := p) (r := RequestList.takeFrom (w.requests p) i t)
  rw [← hv] at hvs hvb
  refine ⟨?_, by rw [hvs, hvb, update_self, update_self, hslots]⟩
  rw [hvs, hvb, update_self, update_idem, hslots, hv]
  refine (h.rearrange (hold ▸ hperm.symm) (fun s hs ↦ ?_) fun s hs ↦ .inl (hperm.mem_iff.mp hs)).of_requests _
  exact h.bucket p s (hperm.mem_iff.mpr hs)

theorem Accounts.settle (h : Accounts H C w.slots (update w.buckets p (t :: w.buckets p)) w φ)
    (ht : ∀ c, φ t ≠ .queued c) : Accounts H C w.slots w.buckets w φ := by
  have hall := h.rearrange (.refl _)
    (fun s hs ↦ h.bucket p s (by rw [update_self]; exact mem_cons_of_mem t hs)) (fun s hs ↦ ?_)
  · rwa [update_eq_self, update_idem, update_eq_self] at hall
  rw [update_self] at hs
  rcases mem_cons.mp hs with hs | hs
  · exact .inr (hs ▸ ht)
  · exact .inl hs

theorem Accounts.drop {φ' : ℕ → Phase}
    (h : Accounts H C w.slots (update w.buckets p l) v φ) (hsub : ∀ t ∈ w.buckets p, t ∈ l)
    (hl : ∀ s ∈ l, s ∈ w.buckets p ∨ s = t) (ht : (w.requests p).transfer = some t)
    (ha : Sheds H C t v φ w' φ') :
    Accounts H C (update w.slots p (w.buckets p)) w.buckets w' φ' := by
  have hslots : w.slots p = t :: w.buckets p := by rw [World.slots, RequestList.slots, ht]; rfl
  have hall := h.shrink (s := w.buckets p)
    (ha.congr (fun s ↦ mem_singleton.symm) fun _ ↦ id) (by rw [hslots]; rfl) (fun _ hf ↦ hf.elim)
    (fun s hs ↦ ⟨by rw [update_self]; exact hsub s hs, hs, id⟩) (fun s hs ↦ ?_)
  · rwa [update_idem, update_eq_self] at hall
  rw [update_self] at hs
  rcases hl s hs with hs | hs
  · exact .inr (.inl hs)
  · exact .inl (mem_singleton.mpr hs)

section

variable (h : Accounts H C w.slots (update w.buckets p l) w φ) (hsub : ∀ t ∈ w.buckets p, t ∈ l)
  (hl : ∀ t ∈ l, t ∈ w.buckets p ∨ (w.requests p).transfer = some t)
  (hcare : H → ∀ t b, (w.requests p).transfer = some t → φ t = .leading b → (∀ s, φ s ≠ .waiting b) → DissimilarStalled w φ b)
include h hsub hl hcare

/-- The transfer in progress is released. When nobody can follow it as the leader, the
dissimilar transfers of its block are given up. -/
theorem ensures_skipped : Safely H (RequestList.skipped p w) (Consistent H C) := by
  rw [RequestList.skipped]
  cases htr : (w.requests p).transfer with
  | none => simp [Bad, stallFault]
  | some t =>
    have ht : t ∈ w.slots p := by simp [World.slots, RequestList.slots, htr]
    refine (ensures_release (C := C) h.tracks h.balanced (h.held p t ht) fun hH b ↦ hcare hH t b htr).bind ?_
    rintro w₁ ⟨φ₁, h₁⟩
    have hall := h.drop hsub (fun s hs ↦ (hl s hs).imp_right fun hc ↦ mem_unique hc htr) htr h₁
    refine .ok ⟨φ₁, ?_⟩
    rw [slots_setRequests, buckets_setRequests, h₁.kept.requests_eq, h₁.kept.slots, h₁.kept.buckets]
    have hbuckets : update w.buckets p { w.requests p with transfer := none }.buckets = w.buckets :=
      update_eq_self p w.buckets
    rw [hbuckets]
    exact hall.of_requests _

theorem ensures_clear : Safely H (clear p w) (Consistent H C) := by
  have hqueues : ∀ v, Consistent H C v → Safely H (do
      let w ← clearQueue p .queued v
      let w ← clearQueue p .unordered w
      let w ← clearQueue p .stalled w
      clearQueue p .choked w) (Consistent H C) := by
    intro v hv
    refine (ensures_destroy hv .queued _).bind fun v₁ h₁ ↦ ?_
    refine (ensures_destroy h₁.1 .unordered _).bind fun v₂ h₂ ↦ ?_
    refine (ensures_destroy h₂.1 .stalled _).bind fun v₃ h₃ ↦ ?_
    exact (ensures_destroy h₃.1 .choked _).mono fun v₄ h₄ ↦ h₄.1
  rw [clear]
  by_cases htr : (w.requests p).transfer = none
  · rw [if_pos htr]
    refine hqueues w ⟨φ, ?_⟩
    have := h.rearrange (.refl _)
      (fun t ht ↦ h.bucket p t (by rw [update_self]; exact hsub t ht)) (fun t ht ↦ ?_)
    · rwa [update_eq_self, update_idem, update_eq_self] at this
    · rw [update_self] at ht
      exact .inl ((hl t ht).resolve_right (by simp [htr]))
  · rw [if_neg htr]
    exact (ensures_skipped h hsub hl hcare).bind fun w₁ h₁ ↦ hqueues w₁ h₁

end

theorem ensures_downloading (h : Consistent H C w) :
    Safely H (downloading p piece w) (AfterDownloading H C p) := by
  obtain ⟨φ, hφ⟩ := h
  rw [downloading]
  by_cases hnone : (w.requests p).transfer = none
  swap
  · rw [if_pos hnone]
    simp [Bad, stallFault]
  rw [if_neg (not_not.mpr hnone)]
  have hold : w.slots p = w.buckets p := by rw [World.slots, RequestList.slots, hnone]; rfl
  refine (ensures_findIfInAny fun t ht ↦ ?_).bind fun o ho ↦ ?_
  · obtain ⟨x, hx, -⟩ := hφ.alive (mem_append_right _ ht)
    simp [hx]
  cases o with
  | none =>
    refine ensures_downloadingError (φ := φ) ?_
    rwa [← hold, update_eq_self]
  | some it =>
    obtain ⟨i, t⟩ := it
    have ht := ho i t rfl
    generalize hv : w.setRequests p (takeFrom (w.requests p) i t) = v
    obtain ⟨hacc, hslots⟩ := hφ.takeFrom hnone ht hv.symm
    have hrest : (φ t).Resting := (hacc.bucket p t (by rw [update_self]; exact mem_cons_self)).2
    have htr : (v.requests p).transfer = some t := by
      rw [← hv, requests_setRequests, (buckets_takeFrom ht).2]
    obtain ⟨x, hx, hxb, -⟩ := hacc.alive (by rw [hslots]; exact mem_cons_self)
    dsimp only
    rw [hv, get_eq hx, ok_bind]
    split_ifs with hlen hzero
    · exact ⟨t, φ, htr, hacc⟩
    · refine (ensures_release (C := C) hacc.tracks hacc.balanced hrest.held fun _ b hb ↦ ?_).bind ?_
      · rw [hb] at hrest
        exact hrest.elim
      rintro w₁ ⟨φ₁, h₁⟩
      refine ensures_downloadingError (φ := φ₁) ?_
      rw [h₁.kept.slots, h₁.kept.buckets]
      exact hacc.drop (fun s hs ↦ mem_cons_of_mem t hs) (fun s hs ↦ (mem_cons.mp hs).symm) htr h₁
    · cases hb : x.block with
      | none =>
        have hφt : φ t = .detached := Phase.eq_detached hrest.held (hxb.symm.trans hb)
        exact ⟨φ, hacc.settle fun c ↦ by simp [hφt]⟩
      | some b =>
        have hφt : φ t = .queued b := by
          rcases hacc.tracks.phase_of_block hx hb with hc | hc | hc
          · exact hc
          · rw [hc] at hrest
            exact hrest.elim
          · rw [hc] at hrest
            exact hrest.elim
        refine (ensures_transfering (C := C) hacc.tracks hacc.balanced hφt).bind ?_
        rintro ⟨_, w₁⟩ ⟨φ₁, h₁, hstart⟩
        have hne : ∀ s ∈ v.buckets p, s ≠ t := by
          have hn := hacc.nodup p
          rw [hslots, nodup_cons] at hn
          exact fun s hs hst ↦ hn.1 (hst ▸ hs)
        have hall := hacc.advance (p := p) (b := v.buckets p) h₁ (fun _ hf ↦ hf.elim) (fun s hs ↦ ?_)
          (hacc.nodup p) (fun s ↦ by simp) (fun s hs ↦ ?_) (fun s hs ↦ ?_)
        · rw [update_eq_self, update_idem, update_eq_self] at hall
          refine .ok (show Consistent H C w₁ from ⟨φ₁, ?_⟩)
          rwa [h₁.kept.slots, h₁.kept.buckets]
        · rw [hs, hslots]
          exact mem_cons_self
        · exact (hacc.bucket p s (by rw [update_self]; exact mem_cons_of_mem t hs)).imp (⟨·, id⟩)
            (h₁.rest s (hne s hs) id)
        rw [update_self] at hs
        rcases mem_cons.mp hs with hs | hs
        · exact .inr (.inr (hs ▸ hstart))
        · exact .inr (.inl hs)

end LibTorrent
