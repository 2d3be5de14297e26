import LibTorrent.Transfer.Destroy

namespace LibTorrent

open Function List

namespace RequestList

def buckets (r : RequestList) : List ℕ :=
  r.queues .queued ++ (r.queues .unordered ++ (r.queues .stalled ++ r.queues .choked))

def slots (r : RequestList) : List ℕ := r.transfer.toList ++ r.buckets

variable {r : RequestList} {i j : Bucket} {l k : List ℕ} {t : ℕ}

theorem mem_buckets : t ∈ r.buckets ↔ ∃ i, t ∈ r.queues i := by
  simp only [buckets, mem_append]
  refine ⟨fun h ↦ ?_, fun ⟨i, h⟩ ↦ ?_⟩
  · rcases h with h | h | h | h
    · exact ⟨_, h⟩
    · exact ⟨_, h⟩
    · exact ⟨_, h⟩
    · exact ⟨_, h⟩
  · cases i <;> simp [h]

theorem buckets_setQueue (h : (r.queues i).Perm (l ++ k)) : r.buckets.Perm (l ++ (r.setQueue i k).buckets) := by
  rw [perm_iff_count]
  intro a
  have hc := perm_iff_count.mp h a
  cases i <;> simp [buckets, setQueue, count_append, hc] <;> omega

theorem slots_setQueue (h : (r.queues i).Perm (l ++ k)) : r.slots.Perm (l ++ (r.setQueue i k).slots) := by
  have hb := (buckets_setQueue h).append_left r.transfer.toList
  refine hb.trans ?_
  rw [slots, ← append_assoc, ← append_assoc]
  exact perm_append_comm.append_right _

theorem buckets_moveTo (h : r.queues i = l ++ k) : (r.moveTo i l k j).buckets.Perm r.buckets := by
  have hout := buckets_setQueue (by rw [h])
  have hin := buckets_setQueue (r := r.moveTo i l k j) (i := j) (k := (r.setQueue i k).queues j)
    (by simpa [moveTo, setQueue] using perm_append_comm)
  have hback : (r.moveTo i l k j).setQueue j ((r.setQueue i k).queues j) = r.setQueue i k := by
    simp [moveTo, setQueue]
  rw [hback] at hin
  exact hin.trans hout.symm

end RequestList

namespace World

def slots (w : World) (p : ℕ) : List ℕ := (w.requests p).slots

def buckets (w : World) (p : ℕ) : List ℕ := (w.requests p).buckets

variable {w w' : World} {p : ℕ} {r : RequestList}

@[simp] theorem requests_setRequests : (w.setRequests p r).requests p = r := by simp [requests, setRequests]

theorem slots_setRequests : (w.setRequests p r).slots = update w.slots p r.slots := by
  funext q
  by_cases hq : q = p
  · subst hq
    simp [slots, requests, setRequests]
  · simp [slots, requests, setRequests, update_of_ne hq]

theorem buckets_setRequests : (w.setRequests p r).buckets = update w.buckets p r.buckets := by
  funext q
  by_cases hq : q = p
  · subst hq
    simp [buckets, requests, setRequests]
  · simp [buckets, requests, setRequests, update_of_ne hq]

end World

variable {w' w : World} {f : Phase}

theorem Kept.requests_eq (h : Kept w w') (p : ℕ) : w'.requests p = w.requests p := h.requests p

theorem Kept.slots (h : Kept w w') : w'.slots = w.slots :=
  funext fun p ↦ by rw [World.slots, h.requests_eq, World.slots]

theorem Kept.buckets (h : Kept w w') : w'.buckets = w.buckets :=
  funext fun p ↦ by rw [World.buckets, h.requests_eq, World.buckets]

/-- Every transfer is accounted for: blocks and phases agree, and the held transfers are those
in the slots `S` of the peers. `B` are the slots of transfers that are not in progress, and all
that wait in the queue of a block are among them. -/
structure Accounts (H C : Prop) (S B : ℕ → List ℕ) (w : World) (φ : ℕ → Phase) : Prop where
  tracks : Tracks w φ
  balanced : H → Balanced (fun _ ↦ 0) w
  clean : C → ∀ t, ¬ (φ t).Leftover
  small : ∀ t b, (φ t).home = some b → b < w.size ∧ w.present = true
  nodup : ∀ p, (S p).Nodup
  held : ∀ p, ∀ t ∈ S p, (φ t).Held
  peer : ∀ p, ∀ t ∈ S p, (w.heap t).map BlockTransfer.peerInfo = some (some p)
  owned : ∀ t, (φ t).Held → ∃ p, t ∈ S p
  bucket : ∀ p, ∀ t ∈ B p, t ∈ S p ∧ (φ t).Resting
  started : ∀ p, ∀ t ∈ S p, t ∉ B p → ∀ b, φ t ≠ .queued b

def Consistent (H C : Prop) (w : World) : Prop := ∃ φ, Accounts H C w.slots w.buckets w φ

theorem Phase.Resting.held (h : f.Resting) : f.Held := by cases f <;> trivial

theorem Advance.refl {H C : Prop} {φ : ℕ → Phase} (h : Tracks w φ) (hbal : H → Level w) : Calm H C w φ w φ :=
  ⟨h, hbal, fun _ ↦ by simp, fun _ _ _ ↦ id, fun _ hclean ↦ hclean, fun _ _ ↦ id, fun _ _ ↦ rfl, fun _ _ ↦ id, Kept.refl w⟩

section Rules

variable {H C : Prop} {gone busy : ℕ → Prop} {S B : ℕ → List ℕ} {w w' : World} {φ φ' : ℕ → Phase} {p q t : ℕ}

theorem Accounts.disjoint (h : Accounts H C S B w φ) (hp : t ∈ S p) (hq : t ∈ S q) : p = q := by
  have := (h.peer p t hp).symm.trans (h.peer q t hq)
  simpa using this

variable {s b : List ℕ}

variable (h : Accounts H C S B w φ)
include h

theorem Accounts.advance (ha : Advance H C gone busy w φ w' φ')
    (hgone : ∀ t, gone t → t ∈ S p) (hbusy : ∀ t, busy t → t ∈ S p) (hs : s.Nodup)
    (hmem : ∀ t, t ∈ s ↔ t ∈ S p ∧ ¬ gone t) (hb : ∀ t ∈ b, (t ∈ S p ∧ ¬ gone t) ∧ (φ' t).Resting)
    (hB : ∀ t ∈ B p, gone t ∨ t ∈ b ∨ ∀ c, φ' t ≠ .queued c) :
    Accounts H C (update S p s) (update B p b) w' φ' := by
  -- what another peer holds is neither gone nor busy
  have hother : ∀ q ≠ p, ∀ t ∈ S q, ¬ gone t ∧ ¬ busy t := fun q hq t ht ↦
    ⟨fun hg ↦ hq (h.disjoint ht (hgone t hg)), fun hg ↦ hq (h.disjoint ht (hbusy t hg))⟩
  have hslot : ∀ q t, t ∈ update S p s q ↔ t ∈ S q ∧ ¬ gone t :=
    (forall_update_iff S fun q l ↦ ∀ t, t ∈ l ↔ t ∈ S q ∧ ¬ gone t).mpr
      ⟨hmem, fun q hq t ↦ ⟨fun ht ↦ ⟨ht, (hother q hq t ht).1⟩, And.left⟩⟩
  have hrest : ∀ q, ∀ t ∈ update B p b q, (t ∈ S q ∧ ¬ gone t) ∧ (φ' t).Resting := by
    refine (forall_update_iff B fun q l ↦ ∀ t ∈ l, (t ∈ S q ∧ ¬ gone t) ∧ (φ' t).Resting).mpr ⟨hb, fun q hq t ht ↦ ?_⟩
    obtain ⟨hin, hr⟩ := h.bucket q t ht
    obtain ⟨hng, hnb⟩ := hother q hq t hin
    exact ⟨⟨hin, hng⟩, ha.rest t hnb hng hr⟩
  have hstart : ∀ q, ∀ t ∈ B q, gone t ∨ t ∈ update B p b q ∨ ∀ c, φ' t ≠ .queued c :=
    (forall_update_iff B fun q l ↦ ∀ t ∈ B q, gone t ∨ t ∈ l ∨ ∀ c, φ' t ≠ .queued c).mpr
      ⟨hB, fun _ _ _ ht ↦ .inr (.inl ht)⟩
  have hheld : ∀ q, ∀ t ∈ update S p s q, (φ' t).Held := fun q t ht ↦
    (ha.held t).mpr (((hslot q t).mp ht).imp_left (h.held q t))
  refine ⟨ha.tracks, ha.balanced, fun hC ↦ ha.clean hC (h.clean hC), fun t b hb ↦ ?_,
    (forall_update_iff S fun _ l ↦ l.Nodup).mpr ⟨hs, fun q _ ↦ h.nodup q⟩, hheld, fun q t ht ↦ ?_, fun t ht ↦ ?_,
    fun q t ht ↦ (hrest q t ht).imp_left (hslot q t).mpr, fun q t ht hn c hc ↦ ?_⟩
  · rw [ha.kept.size, ha.kept.present]
    exact h.small t b (ha.home t b hb)
  · rw [ha.peer t (hheld q t ht)]
    exact h.peer q t ((hslot q t).mp ht).1
  · obtain ⟨hold, hng⟩ := (ha.held t).mp ht
    obtain ⟨q, hq⟩ := h.owned t hold
    exact ⟨q, (hslot q t).mpr ⟨hq, hng⟩⟩
  · obtain ⟨hin, hng⟩ := (hslot q t).mp ht
    refine h.started q t hin (fun hB ↦ ?_) c (ha.fresh t c hc)
    rcases hstart q t hB with hg | hb | hne
    · exact hng hg
    · exact hn hb
    · exact hne c hc

theorem Accounts.shrink (ha : Advance H C (· ∈ l) busy w φ w' φ')
    (hperm : (S p).Perm (l ++ s)) (hbusy : ∀ t, busy t → t ∈ S p) (hb : ∀ t ∈ b, t ∈ B p ∧ t ∈ s ∧ ¬ busy t)
    (hB : ∀ t ∈ B p, t ∈ l ∨ t ∈ b ∨ ∀ c, φ' t ≠ .queued c) :
    Accounts H C (update S p s) (update B p b) w' φ' := by
  have hnodup := hperm.nodup_iff.mp (h.nodup p)
  rw [nodup_append] at hnodup
  obtain ⟨-, hs, hdis⟩ := hnodup
  refine h.advance ha (fun t ht ↦ hperm.mem_iff.mpr (mem_append_left s ht)) hbusy hs (fun t ↦ ?_) (fun t ht ↦ ?_) hB
  · rw [hperm.mem_iff, mem_append]
    exact ⟨fun ht ↦ ⟨.inr ht, fun hl ↦ hdis t hl t ht rfl⟩, fun ⟨ht, hl⟩ ↦ ht.resolve_left hl⟩
  · obtain ⟨hin, hs', hnb⟩ := hb t ht
    obtain ⟨hslot, hrest⟩ := h.bucket p t hin
    have hng : t ∉ l := fun hl ↦ hdis t hl t hs' rfl
    exact ⟨⟨hslot, hng⟩, ha.rest t hnb hng hrest⟩

theorem Accounts.stay (ha : Calm H C w φ w' φ') : Accounts H C S B w' φ' := by
  have := h.advance (p := 0) ha (fun _ hf ↦ hf.elim) (fun _ hf ↦ hf.elim) (h.nodup 0)
    (fun t ↦ by simp) (fun t ht ↦ (h.bucket 0 t ht).imp (⟨·, id⟩) (ha.rest t id id)) (fun t ht ↦ .inr (.inl ht))
  rwa [update_eq_self, update_eq_self] at this

theorem Accounts.of_requests (r : RequestList) : Accounts H C S B (w.setRequests p r) φ :=
  ⟨⟨fun s ↦ ⟨(h.tracks.placed s).shows, (h.tracks.placed s).queued, (h.tracks.placed s).transfers,
    (h.tracks.placed s).leader⟩, h.tracks.settled, h.tracks.next⟩, h.balanced, h.clean, h.small, h.nodup, h.held,
    h.peer, h.owned, h.bucket, h.started⟩

theorem Accounts.rearrange (hs : s.Perm (S p))
    (hb : ∀ t ∈ b, t ∈ S p ∧ (φ t).Resting) (hB : ∀ t ∈ B p, t ∈ b ∨ ∀ c, φ t ≠ .queued c) :
    Accounts H C (update S p s) (update B p b) w φ :=
  h.advance (.refl h.tracks h.balanced) (fun _ hf ↦ hf.elim) (fun _ hf ↦ hf.elim) (hs.nodup_iff.mpr (h.nodup p))
    (fun t ↦ by simp [hs.mem_iff]) (fun t ht ↦ (hb t ht).imp_left (⟨·, id⟩)) fun t ht ↦ .inr (hB t ht)

theorem Accounts.allocate (ha : Allocated H f p w φ w')
    (hrest : f.Resting) (hclean : ¬ f.Leftover) (hsmall : ∀ b, f.home = some b → b < w.size ∧ w.present = true)
    (hs : s.Perm (w.next :: S p)) (hb : ∀ t ∈ b, t ∈ B p ∨ t = w.next) (hB : ∀ t ∈ B p, t ∈ b)
    (hnew : w.next ∉ b → ∀ c, f ≠ .queued c) :
    Accounts H C (update S p s) (update B p b) w' (update φ w.next f) := by
  have hfree : φ w.next = .free := h.tracks.next _ le_rfl
  have hout : ∀ q, w.next ∉ S q := fun q hq ↦ by
    have := h.held q _ hq
    rw [hfree] at this
    exact this
  have hmem : ∀ q t, t ∈ update S p s q ↔ t ∈ S q ∨ q = p ∧ t = w.next :=
    (forall_update_iff S fun q l ↦ ∀ t, t ∈ l ↔ t ∈ S q ∨ q = p ∧ t = w.next).mpr
      ⟨fun t ↦ by simp [hs.mem_iff, or_comm], fun q hq t ↦ by simp [hq]⟩
  have hbucket : ∀ q, ∀ t ∈ update B p b q, t ∈ B q ∨ q = p ∧ t = w.next :=
    (forall_update_iff B fun q l ↦ ∀ t ∈ l, t ∈ B q ∨ q = p ∧ t = w.next).mpr
      ⟨fun t ht ↦ (hb t ht).imp_right (⟨rfl, ·⟩), fun _ _ _ ht ↦ .inl ht⟩
  have hstart : ∀ q, ∀ t ∈ B q, t ∈ update B p b q :=
    (forall_update_iff B fun q l ↦ ∀ t ∈ B q, t ∈ l).mpr ⟨hB, fun _ _ _ ht ↦ ht⟩
  have hold : ∀ q, ∀ t ∈ S q, t ≠ w.next := fun q t ht hc ↦ hout q (hc ▸ ht)
  refine ⟨ha.tracks, ha.balanced, fun hC ↦ ?_, ?_, ?_, fun q t ht ↦ ?_, fun q t ht ↦ ?_,
    fun t ht ↦ ?_, fun q t ht ↦ ?_, fun q t ht hn c hc ↦ ?_⟩
  · exact (forall_update_iff φ fun _ f ↦ ¬ f.Leftover).mpr ⟨hclean, fun t _ ↦ h.clean hC t⟩
  · rw [ha.kept.size, ha.kept.present]
    exact (forall_update_iff φ fun _ f ↦ ∀ b, f.home = some b → b < w.size ∧ w.present = true).mpr ⟨hsmall, fun t _ ↦ h.small t⟩
  · exact (forall_update_iff S fun _ l ↦ l.Nodup).mpr
      ⟨hs.nodup_iff.mpr (nodup_cons.mpr ⟨hout p, h.nodup p⟩), fun q _ ↦ h.nodup q⟩
  · rcases (hmem q t).mp ht with ht | ⟨-, ht⟩
    · rw [update_of_ne (hold q t ht)]
      exact h.held q t ht
    · rw [ht, update_self]
      exact hrest.held
  · rcases (hmem q t).mp ht with ht | ⟨hq, ht⟩
    · rw [ha.heap t (hold q t ht)]
      exact h.peer q t ht
    · rw [ht, hq]
      exact ha.peer
  · by_cases htn : t = w.next
    · exact ⟨p, (hmem p t).mpr (.inr ⟨rfl, htn⟩)⟩
    rw [update_of_ne htn] at ht
    obtain ⟨q, hq⟩ := h.owned t ht
    exact ⟨q, (hmem q t).mpr (.inl hq)⟩
  · rw [hmem]
    rcases hbucket q t ht with ht | ⟨hq, ht⟩
    · obtain ⟨hslot, hr⟩ := h.bucket q t ht
      rw [update_of_ne (hold q t hslot)]
      exact ⟨.inl hslot, hr⟩
    · rw [ht, update_self]
      exact ⟨.inr ⟨hq, rfl⟩, hrest⟩
  · rcases (hmem q t).mp ht with ht | ⟨hq, ht⟩
    · rw [update_of_ne (hold q t ht)] at hc
      exact h.started q t ht (fun hin ↦ hn (hstart q t hin)) c hc
    · rw [ht, update_self] at hc
      rw [hq, ht, update_self] at hn
      exact hnew hn c hc

end Rules

end LibTorrent
