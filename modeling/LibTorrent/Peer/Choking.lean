import LibTorrent.Peer.Connection

namespace LibTorrent

open Bool Lib.Outcome

namespace ChokeStatus

variable {c : ChokeStatus} {now : ℕ}

structure Listed (c : ChokeStatus) : Prop where
  unchoked : c.inUnchoked = c.unchoked
  queued : c.inQueued = (c.queued && !c.unchoked && !c.snubbed)
  interested : c.unchoked = true → c.queued = true ∧ c.snubbed = false

/-- The status after the slot has choked the connection, and after it has unchoked it. -/
def afterChoke (choke : Bool) (now : ℕ) (c : ChokeStatus) : ChokeStatus :=
  { c with unchoked := !choke, timeLastChoke := now, inUnchoked := !choke, inQueued := choke }

def Takes (choke : Bool) (c : ChokeStatus) : Prop :=
  c.unchoked = choke ∧ c.inUnchoked = choke ∧ c.inQueued = !choke

variable {choke : Bool}

theorem Takes.receiveChoke (h : c.Takes choke) : c.receiveChoke choke now = .ok (c.afterChoke choke now) := by
  obtain ⟨-, hu, hq⟩ := h
  cases choke with
  | true => simp [ChokeStatus.receiveChoke, connectionChoked, connectionQueued, hu, hq, afterChoke]
  | false => simp [ChokeStatus.receiveChoke, connectionUnchoked, connectionUnqueued, hu, hq, afterChoke]

theorem Takes.ne_choked (h : c.Takes choke) : ¬ choke = c.choked := by
  rw [choked, h.1]
  cases choke <;> decide

theorem Listed.choked (h : c.Listed) (hs : c.snubbed = true) : c.unchoked = false :=
  eq_false_of_not_eq_true fun hu ↦ absurd (hs.symm.trans (h.interested hu).2) nofun

theorem Listed.takes (h : c.Listed) (hin : (if choke then c.inUnchoked else c.inQueued) = true) :
    c.Takes choke := by
  have hunchoked := h.unchoked
  have hqueued := h.queued
  cases choke with
  | true =>
    have hu : c.inUnchoked = true := hin
    have hc : c.unchoked = true := hunchoked.symm.trans hu
    exact ⟨hc, hu, by simp [hqueued, hc]⟩
  | false =>
    have hq : c.inQueued = true := hin
    have hc : c.unchoked = false := by
      rw [hqueued, and_eq_true, and_eq_true, not_eq_true'] at hq
      exact hq.1.2
    exact ⟨hc, hunchoked.trans hc, hq⟩

end ChokeStatus

namespace ChokeQueue

open ChokeStatus

variable {σ : Type} {q : ChokeQueue σ} {ready : σ → Prop} {acts : Bool → σ → σ → Prop} {choke room : Bool}
  {now : ℕ}
  {s t : σ}

/-- What the queue relies on: a status is read as it was set, and the slot works on connections that are ready and in
the right list, and does to them what `acts` says. -/
structure Slots (q : ChokeQueue σ) (ready : σ → Prop) (acts : Bool → σ → σ → Prop) : Prop where
  status_setStatus : ∀ c s, q.status (q.setStatus c s) = c
  setStatus_status : ∀ s, q.setStatus (q.status s) s = s
  setStatus_setStatus : ∀ c c' s, q.setStatus c (q.setStatus c' s) = q.setStatus c s
  ready_unqueued : ∀ s, (q.status s).queued = false → ready s
  slot : ∀ choke s, (q.status s).Takes choke → (choke = true → ready s) →
    Ensures (fun _ ↦ True) (q.slotConnection choke s) fun t ↦
      acts choke s t ∧ ∃ now, q.status t = (q.status s).afterChoke choke now

/-- What a call of the queue does: it changes the status, and may call the slot in between. -/
inductive Change (q : ChokeQueue σ) (acts : Bool → σ → σ → Prop) (choke : Bool) (s : σ) : σ → Prop
  | set (c : ChokeStatus) (hc : c.unchoked = (q.status s).unchoked) : Change q acts choke s (q.setStatus c s)
  | slot (c c' : ChokeStatus) {u : σ} (hs : (q.status s).unchoked = choke) (h : acts choke (q.setStatus c s) u)
      (hc' : c'.unchoked = !choke) : Change q acts choke s (q.setStatus c' u)

variable {c : ChokeStatus}

section

variable (hq : Slots q ready acts)
include hq

theorem Slots.refl (s : σ) : Change q acts choke s s := by
  have h : Change q acts choke s (q.setStatus (q.status s) s) := .set (q.status s) rfl
  rwa [hq.setStatus_status] at h

theorem Slots.ensures_slot (hc : c.Takes choke)
    (hs : (q.status s).unchoked = choke) (hready : choke = true → ready (q.setStatus c s)) :
    Gives (q.slotConnection choke (q.setStatus c s)) fun t ↦
      Change q acts choke s t ∧ ∃ now, q.status t = c.afterChoke choke now := by
  have hslot := hq.slot choke (q.setStatus c s) (by rwa [hq.status_setStatus]) hready
  refine hslot.mono fun t ⟨hact, now, hstatus⟩ ↦ ?_
  rw [hq.status_setStatus] at hstatus
  refine ⟨?_, now, hstatus⟩
  have h := Change.slot c (q.status t) hs hact (by rw [hstatus, afterChoke])
  rwa [hq.setStatus_status] at h

theorem Slots.change_setStatus (h : Change q acts choke s t)
    (hc : c.unchoked = (q.status t).unchoked) : Change q acts choke s (q.setStatus c t) := by
  cases h with
  | set c₀ hc₀ =>
    rw [hq.status_setStatus, hc₀] at hc
    rw [hq.setStatus_setStatus]
    exact .set c hc
  | slot c₀ c₁ hs hact hc₁ =>
    rw [hq.status_setStatus, hc₁] at hc
    rw [hq.setStatus_setStatus]
    exact .slot c₀ c hs hact hc

theorem Slots.entry_setStatus {f : ChokeStatus → Except PeerFault ChokeStatus} {d : ChokeStatus} (hf : f c = .ok d) :
    q.entry f (q.setStatus c s) = .ok (q.setStatus d s) := by
  rw [entry, hq.status_setStatus, hf, ok_bind, hq.setStatus_setStatus]

theorem Slots.ensures_dequeue (hc : c.Takes true) (hs : (q.status s).unchoked = true)
    (hready : ready (q.setStatus c s)) :
    Gives (q.slotConnection true (q.setStatus c s) >>= q.entry connectionUnqueued) fun t ↦
      Change q acts true s t ∧ ∃ now, q.status t = { c.afterChoke true now with inQueued := false } := by
  refine (hq.ensures_slot hc hs fun _ ↦ hready).bind fun t ⟨hchange, now, hstatus⟩ ↦ ?_
  have hentry : (q.status t).connectionUnqueued = .ok { q.status t with inQueued := false } := by
    rw [hstatus]
    rfl
  rw [entry, hentry, ok_bind]
  exact ⟨hq.change_setStatus hchange rfl, now, by rw [hq.status_setStatus, hstatus]⟩

theorem Slots.ensures_setNotQueued (h : (q.status s).Listed) :
    Gives (q.setNotQueued s) fun t ↦ Change q acts true s t ∧ (q.status t).Listed ∧
      (q.status t).queued = false ∧ (q.status t).unchoked = false ∧ (q.status t).snubbed = (q.status s).snubbed := by
  generalize hc : q.status s = c at h
  rw [setNotQueued, hc]
  dsimp only
  rw [hq.status_setStatus]
  refine .ite (fun hqueued ↦ ?_) fun hqueued ↦ .ite (fun hsnub ↦ ?_) fun hsnub ↦
    .ite (fun hu ↦ ?_) fun hu ↦ ?_
  · have hfalse : c.queued = false := by simpa using hqueued
    have hu : c.unchoked = false := by
      by_contra hu
      simp [(h.interested (by simpa using hu)).1] at hfalse
    refine ⟨hq.refl s, ?_⟩
    rw [hc]
    exact ⟨h, hfalse, hu, rfl⟩
  · have hsnub' : c.snubbed = true := hsnub
    have hu := h.choked hsnub'
    refine ⟨.set _ (by rw [hc]), ?_⟩
    rw [hq.status_setStatus]
    exact ⟨⟨h.unchoked, by simp [h.queued, hsnub'], by simp [hu]⟩, rfl, hu, rfl⟩
  · have htakes : ({ c with queued := false } : ChokeStatus).Takes true :=
      ⟨hu, h.unchoked.trans hu, by simp [h.queued, show c.unchoked = true from hu]⟩
    have hready : ready (q.setStatus { c with queued := false } s) :=
      hq.ready_unqueued _ (by rw [hq.status_setStatus])
    refine (hq.ensures_dequeue htakes (by rw [hc]; exact hu) hready).mono fun t ⟨hchange, now, hstatus⟩ ↦ ⟨hchange, ?_⟩
    rw [hstatus]
    exact ⟨⟨rfl, by simp [afterChoke], nofun⟩, rfl, rfl, rfl⟩
  · have hu' : c.unchoked = false := by simpa using hu
    have hsnub' : c.snubbed = false := by simpa using hsnub
    have hqueued' : c.queued = true := by simpa using hqueued
    have hin : c.inQueued = true := by simp [h.queued, hqueued', hu', hsnub']
    rw [hq.entry_setStatus (d := { c with queued := false, inQueued := false }) (by simp [connectionUnqueued, hin])]
    refine ⟨.set _ (by rw [hc]), ?_⟩
    rw [hq.status_setStatus]
    exact ⟨⟨h.unchoked, rfl, by simp [hu']⟩, rfl, hu', rfl⟩

theorem Slots.ensures_unchokeNew (hc : c.Listed) (hin : c.inQueued = true)
    (hs : (q.status s).unchoked = c.unchoked) :
    Gives (q.unchokeNew room now (q.setStatus c s)) fun t ↦ Change q acts false s t ∧
      (q.status t).Listed ∧ (q.status t).queued = true ∧ (q.status t).snubbed = false := by
  have htakes : c.Takes false := hc.takes (by rwa [if_neg (by decide)])
  have hqueued : c.queued = true ∧ c.snubbed = false := by
    have hlist := hc.queued
    rw [hin, eq_comm, and_eq_true, and_eq_true, not_eq_true', not_eq_true'] at hlist
    exact ⟨hlist.1.1, hlist.2⟩
  refine .either ?_ ?_
  · refine (hq.ensures_slot htakes (hs.trans htakes.1) nofun).mono fun t ⟨hchange, time, hstatus⟩ ↦ ⟨hchange, ?_⟩
    rw [hstatus]
    exact ⟨⟨rfl, by simp [afterChoke], fun _ ↦ hqueued⟩, hqueued⟩
  refine ⟨.set c hs.symm, ?_⟩
  rw [hq.status_setStatus]
  exact ⟨hc, hqueued⟩

theorem Slots.ensures_setQueued (room : Bool) (now : ℕ) (h : (q.status s).Listed) :
    Gives (q.setQueued room now s) fun t ↦ Change q acts false s t ∧ (q.status t).Listed ∧
      (q.status t).queued = true ∧ (q.status t).snubbed = (q.status s).snubbed := by
  generalize hc : q.status s = c at h
  rw [setQueued, hc]
  dsimp only
  rw [hq.status_setStatus]
  refine .ite (fun hqueued ↦ ?_) fun hqueued ↦ .ite (fun hsnub ↦ ?_) fun hsnub ↦ ?_
  · refine ⟨hq.refl s, ?_⟩
    rw [hc]
    refine ⟨h, ?_, rfl⟩
    rcases or_eq_true .. |>.mp hqueued with hqueued | hu
    · exact hqueued
    · exact (h.interested hu).1
  · have hsnub' : c.snubbed = true := hsnub
    refine ⟨.set _ (by rw [hc]), ?_⟩
    rw [hq.status_setStatus]
    exact ⟨⟨h.unchoked, by simp [h.queued, hsnub'], by simp [h.choked hsnub']⟩, rfl, rfl⟩
  have hu : c.unchoked = false := by
    by_contra hu
    simp [show c.unchoked = true by simpa using hu] at hqueued
  have hsnub' : c.snubbed = false := by simpa using hsnub
  have hqueued' : c.queued = false := by
    by_contra hn
    simp [show c.queued = true by simpa using hn] at hqueued
  rw [hq.entry_setStatus (d := { c with queued := true, inQueued := true })
    (by simp [connectionQueued, h.queued, hqueued']), ok_bind]
  have hlisted : ({ c with queued := true, inQueued := true } : ChokeStatus).Listed :=
    ⟨h.unchoked, by simp [hu, hsnub'], by simp [hu]⟩
  refine (hq.ensures_unchokeNew hlisted rfl (by rw [hc])).mono ?_
  exact fun t ⟨hchange, hlisted, hqueued, hsnubbed⟩ ↦ ⟨hchange, hlisted, hqueued, hsnubbed.trans hsnub'.symm⟩

end

theorem Slots.ensures_setSnubbed (hq : Slots q (fun _ ↦ True) acts) (h : (q.status s).Listed) :
    Gives (q.setSnubbed s) fun t ↦ Change q acts true s t ∧ (q.status t).Listed ∧ (q.status t).snubbed = true := by
  generalize hc : q.status s = c at h
  rw [setSnubbed, hc]
  dsimp only
  rw [hq.status_setStatus]
  refine .ite (fun hsnub ↦ ⟨hq.refl s, by rwa [hc], by rwa [hc]⟩) fun hsnub ↦ .ite (fun hu ↦ ?_) fun hu ↦
    .ite (fun hqueued ↦ ?_) fun hqueued ↦ ?_
  · have htakes : ({ c with snubbed := true } : ChokeStatus).Takes true :=
      ⟨hu, h.unchoked.trans hu, by simp [h.queued, show c.unchoked = true from hu]⟩
    rw [← bind_assoc]
    refine (hq.ensures_dequeue htakes (by rw [hc]; exact hu) trivial).bind fun t ⟨hchange, now, hstatus⟩ ↦ ?_
    refine ⟨hq.change_setStatus hchange rfl, ?_⟩
    rw [hq.status_setStatus, hstatus]
    exact ⟨⟨rfl, by simp [afterChoke], nofun⟩, rfl⟩
  · have hu' : c.unchoked = false := by simpa using hu
    have hqueued' : c.queued = false := by simpa using hqueued
    refine ⟨.set _ (by rw [hc]), ?_⟩
    rw [hq.status_setStatus]
    exact ⟨⟨h.unchoked, by simp [h.queued, hqueued'], by simp [hu']⟩, rfl⟩
  · have hu' : c.unchoked = false := by simpa using hu
    have hsnub' : c.snubbed = false := by simpa using hsnub
    have hqueued' : c.queued = true := by simpa using hqueued
    rw [hq.entry_setStatus (d := { c with snubbed := true, inQueued := false })
      (by simp [connectionUnqueued, h.queued, hqueued', hu', hsnub']), ok_bind, hq.status_setStatus,
      hq.setStatus_setStatus]
    refine ⟨.set _ (by rw [hc]), ?_⟩
    rw [hq.status_setStatus]
    exact ⟨⟨h.unchoked, rfl, by simp [hu']⟩, rfl⟩

theorem Slots.ensures_setNotSnubbed (hq : Slots q ready acts) (room : Bool) (now : ℕ) (h : (q.status s).Listed) :
    Gives (q.setNotSnubbed room now s) fun t ↦ Change q acts false s t ∧ (q.status t).Listed ∧
      (q.status t).queued = (q.status s).queued ∧ (q.status t).snubbed = false := by
  generalize hc : q.status s = c at h
  rw [setNotSnubbed, hc]
  dsimp only
  rw [hq.status_setStatus]
  refine .ite (fun hsnub ↦ ⟨hq.refl s, by rwa [hc], by rw [hc], by simpa [hc] using hsnub⟩) fun hsnub ↦ ?_
  have hsnub' : c.snubbed = true := by simpa using hsnub
  have hu := h.choked hsnub'
  refine .ite (fun hqueued ↦ ?_) fun hqueued ↦ .ite (fun hu' ↦ ?_) fun _ ↦ ?_
  · have hqueued' : c.queued = false := by simpa using hqueued
    refine ⟨.set _ (by rw [hc]), ?_⟩
    rw [hq.status_setStatus]
    exact ⟨⟨h.unchoked, by simp [h.queued, hqueued'], by simp [hu]⟩, rfl, rfl⟩
  · exact absurd (hu'.symm.trans hu) (by decide)
  have hqueued' : c.queued = true := by simpa using hqueued
  rw [hq.entry_setStatus (d := { c with snubbed := false, inQueued := true })
    (by simp [connectionQueued, h.queued, hsnub']), ok_bind]
  have hlisted : ({ c with snubbed := false, inQueued := true } : ChokeStatus).Listed :=
    ⟨h.unchoked, by simp [hu, hqueued'], by simp [hu]⟩
  refine (hq.ensures_unchokeNew hlisted rfl (by rw [hc])).mono ?_
  exact fun t ⟨hchange, hlisted, hqueued, hsnubbed⟩ ↦ ⟨hchange, hlisted, hqueued.trans hqueued'.symm, hsnubbed⟩

theorem Slots.ensures_decide (hq : Slots q ready acts) (choke : Bool) (h : (q.status s).Listed)
    (hready : choke = true → (q.status s).unchoked = true → ready s) :
    Gives (q.decide choke s) fun t ↦ Change q acts choke s t ∧ (q.status t).Listed ∧
      (q.status t).queued = (q.status s).queued ∧ (q.status t).snubbed = (q.status s).snubbed := by
  refine .ite (fun hin ↦ ?_) fun _ ↦ ⟨hq.refl s, h, rfl, rfl⟩
  have htakes := h.takes hin
  have hslot := hq.ensures_slot htakes htakes.1 fun hchoke ↦ by
    rw [hq.setStatus_status]
    exact hready hchoke (htakes.1.trans hchoke)
  rw [hq.setStatus_status] at hslot
  refine hslot.mono fun t ⟨hchange, now, hstatus⟩ ↦ ⟨hchange, ?_⟩
  rw [hstatus]
  refine ⟨?_, rfl, rfl⟩
  cases choke with
  | true =>
    obtain ⟨hqueued, hsnub⟩ := h.interested htakes.1
    exact ⟨rfl, by simp [afterChoke, hqueued, hsnub], nofun⟩
  | false =>
    have hlist := h.queued
    rw [htakes.2.2, eq_comm, Bool.not_false, Bool.and_eq_true, Bool.and_eq_true, Bool.not_eq_true',
      not_eq_true'] at hlist
    exact ⟨rfl, by simp [afterChoke], fun _ ↦ ⟨hlist.1.1, hlist.2⟩⟩

end ChokeQueue

namespace PeerConnection

open ChokeStatus

variable {s : PeerConnection}

theorem polling_writeInsertPollSafe (s : PeerConnection) :
    s.writeInsertPollSafe = { s with polling := s.writeInsertPollSafe.polling } := by
  rw [writeInsertPollSafe]
  split_ifs <;> rfl

def ActsUp (_ : Bool) (s t : PeerConnection) : Prop :=
  t = { s with upChoke := t.upChoke, sendChoked := true, polling := t.polling }

theorem slots_upQueue : upQueue.Slots (fun _ ↦ True) ActsUp where
  status_setStatus _ _ := rfl
  setStatus_status _ := rfl
  setStatus_setStatus _ _ _ := rfl
  ready_unqueued _ _ := trivial
  slot choke s h _ := by
    replace h : s.upChoke.Takes choke := h
    change Ensures _ (s.receiveUploadChoke choke) _
    rw [receiveUploadChoke, if_neg h.ne_choked, polling_writeInsertPollSafe]
    simp only [h.receiveChoke, ok_bind, ensures_ok]
    exact ⟨rfl, s.now, rfl⟩

/-- The slot of the downloads withdraws the interest that it finds, or shows interest. -/
def ActsDown (choke : Bool) (s t : PeerConnection) : Prop :=
  if choke then
    t = { s with
      downChoke := t.downChoke
      polling := t.polling
      sendInterested := if s.downUnchoked then s.downInterested else s.sendInterested
      downInterested := !s.downUnchoked && s.downInterested }
  else
    t = { s with
      downChoke := t.downChoke
      polling := t.polling
      tryRequest := true
      sendInterested := !s.downInterested || s.sendInterested
      downInterested := true }

theorem slots_downQueue :
    downQueue.Slots (fun s ↦ s.downChoke.queued = false ∨ s.downUnchoked = true) ActsDown where
  status_setStatus _ _ := rfl
  setStatus_status _ := rfl
  setStatus_setStatus _ _ _ := rfl
  ready_unqueued _ h := .inl h
  slot choke s h hready := by
    replace h : s.downChoke.Takes choke := h
    change Ensures _ (s.receiveDownloadChoke choke) _
    rw [receiveDownloadChoke, if_neg h.ne_choked, polling_writeInsertPollSafe]
    simp only [h.receiveChoke, ok_bind]
    cases choke with
    | true =>
      cases hunchoked : s.downUnchoked with
      | true => exact ⟨by rw [ActsDown, if_pos rfl, hunchoked]; rfl, s.now, rfl⟩
      | false =>
        have hqueued : s.downChoke.queued = false := by simpa [hunchoked] using hready rfl
        simp only [if_true, false_eq_true, if_false]
        refine .ite (fun _ ↦ ?_) fun hn ↦ ?_
        · refine ⟨?_, s.now, rfl⟩
          rw [ActsDown, if_pos rfl, hunchoked]
          rfl
        · exact absurd hqueued (by simpa [chokedQueue, afterChoke] using hn)
    | false =>
      cases hinterested : s.downInterested with
      | true | false => exact ⟨by rw [ActsDown, if_neg (by decide), hinterested]; rfl, s.now, rfl⟩

end PeerConnection

end LibTorrent
