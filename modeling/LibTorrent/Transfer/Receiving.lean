import LibTorrent.Transfer.Assembly
import LibTorrent.Transfer.Finishing
import LibTorrent.Transfer.Writing

namespace LibTorrent

open Block Function Lib.Outcome List Quiet RequestList

variable {v : Progress} {w w' : World} {φ : ℕ → Phase} {b t p : ℕ} {x : BlockTransfer}

theorem LinedAt.isFinished (h : LinedAt v w b) :
    Works (isFinished b w) fun f ↦ f = false → (w.blocks b).state ≠ .completed := by
  refine safe_isFinished.mono fun f hf hopen hc ↦ ?_
  obtain ⟨l, hl, hfinished⟩ := h.ended hc
  obtain ⟨y, hy, rfl⟩ := hf l hl
  rw [hfinished y hy] at hopen
  cases hopen

theorem lined_delegate {bs : List ℕ} (h : Lined v w) (hr : ∀ t, w.next ≤ t → v.received t = []) :
    Works (delegate p bs w) fun w' ↦ Lined v w' ∧ Steady w w' := by
  induction bs generalizing w with
  | nil => exact ⟨h, .refl w⟩
  | cons b bs ih =>
    refine (h b).isFinished.bind fun f hf ↦ .ite (fun _ ↦ ih h hr) fun hopen ↦ ?_
    refine (lined_insert h hr (hf (Bool.eq_false_iff.mpr hopen))).bind fun ⟨o, w₁⟩ ⟨h₁, hs₁⟩ ↦ ?_
    have hr₁ : ∀ t, w₁.next ≤ t → v.received t = [] := fun t ht ↦ hr t (hs₁.next.trans ht)
    cases o with
    | none => exact (ih h₁ hr₁).mono fun _ ↦ And.imp_right hs₁.trans
    | some t =>
      have hq := setRequests (w := w₁) (p := p)
        ((w₁.requests p).setQueue .queued ((w₁.requests p).queues .queued ++ [t]))
      exact (ih (h₁.of_quiet hq) hr₁).mono fun w₂ ⟨h₂, hs₂⟩ ↦ ⟨h₂, (hs₁.trans hq.steady).trans hs₂⟩

theorem quiet_stallQueues : Works (stallQueues p w) (Quiet w) := by
  refine (quiet_forEach_stalled _).bind fun w₁ h₁ ↦ (quiet_forEach_stalled _).bind fun w₂ h₂ ↦ ?_
  exact ((h₁.trans (.setRequests _)).trans h₂).trans (.setRequests _)

theorem quiet_stallProlonged : Works (stallProlonged p w) (Quiet w) := by
  rw [stallProlonged]
  cases (w.requests p).transfer with
  | none => exact quiet_stallQueues
  | some t => exact quiet_stalled.bind fun w₁ h₁ ↦ quiet_stallQueues.mono fun w₂ h₂ ↦ h₁.trans h₂

theorem quiet_choked : Works (choked p w) (Quiet w) := .either (.refl w) (.setRequests _)

variable {l : List ℕ} {piece : Piece}

theorem lined_forEach_release (h : Lined v w) (htracks : Tracks w φ) (hl : l.Nodup)
    (hrest : ∀ t ∈ l, (φ t).Resting) :
    Works (forEach release l w) fun w' ↦ Lined v w' ∧ Steady w w' := by
  induction l generalizing w φ with
  | nil => exact ⟨h, .refl w⟩
  | cons t l ih =>
    rw [nodup_cons] at hl
    have ht := (hrest t mem_cons_self).held
    have hrelease := ensures_release (C := False) htracks False.elim ht False.elim
    refine (hrelease.both (lined_release h htracks ht)).bind fun w₁ ⟨⟨φ₁, h₁⟩, hl₁, hs₁⟩ ↦ ?_
    refine (ih hl₁ h₁.tracks hl.2 fun s hs ↦ ?_).mono fun w₂ ⟨hl₂, hs₂⟩ ↦ ⟨hl₂, hs₁.trans hs₂⟩
    exact h₁.rest s id (fun hst ↦ hl.1 (hst ▸ hs)) (hrest s (mem_cons_of_mem t hs))

theorem lined_destroy {i : Bucket} {n : ℕ} (h : Lined v w) (hcons : Consistent False False w) :
    Works (destroy p i n w) fun w' ↦ Lined v w' ∧ Steady w w' := by
  obtain ⟨φ, hφ⟩ := hcons
  have hnodup : (((w.requests p).queues i).take n).Nodup := (hφ.queue i).1.sublist (take_sublist n _)
  refine (lined_forEach_release h hφ.tracks hnodup fun t ht ↦ ?_).bind fun w₁ ⟨h₁, hs₁⟩ ↦ ?_
  · exact (hφ.bucket p t (mem_buckets.mpr ⟨i, mem_of_mem_take ht⟩)).2
  · exact ⟨h₁.of_quiet (.setRequests _), hs₁.trans (setRequests _).steady⟩

theorem lined_skipped (h : Lined v w) (htracks : Tracks w φ)
    (hheld : ∀ t, (w.requests p).transfer = some t → (φ t).Held) :
    Works (skipped p w) fun w' ↦ Lined v w' ∧ Steady w w' := by
  rw [skipped]
  cases ht : (w.requests p).transfer with
  | none => simp [blockFault]
  | some t =>
    refine (lined_release h htracks (hheld t ht)).bind ?_
    rintro w₁ ⟨h₁, hs₁⟩
    exact ⟨h₁.of_quiet (.setRequests _), hs₁.trans (setRequests _).steady⟩

theorem lined_clearQueues (h : Lined v w) (hcons : Consistent False False w) : Works (do
      let w ← clearQueue p .queued w
      let w ← clearQueue p .unordered w
      let w ← clearQueue p .stalled w
      clearQueue p .choked w) fun w' ↦ Lined v w' ∧ Steady w w' := by
  have hclear : ∀ i w, Lined v w → Consistent False False w → Works (clearQueue p i w)
      fun w' ↦ Consistent False False w' ∧ Lined v w' ∧ Steady w w' := fun i w h hcons ↦
    ((ensures_destroy hcons i _).mono fun _ h' ↦ h'.1).both (lined_destroy h hcons)
  refine (hclear .queued w h hcons).bind fun w₁ ⟨hc₁, h₁, hs₁⟩ ↦ ?_
  refine (hclear .unordered w₁ h₁ hc₁).bind fun w₂ ⟨hc₂, h₂, hs₂⟩ ↦ ?_
  refine (hclear .stalled w₂ h₂ hc₂).bind fun w₃ ⟨hc₃, h₃, hs₃⟩ ↦ ?_
  exact (hclear .choked w₃ h₃ hc₃).mono fun w₄ ⟨_, h₄, hs₄⟩ ↦ ⟨h₄, ((hs₁.trans hs₂).trans hs₃).trans hs₄⟩

theorem lined_clear (h : Lined v w) (hacc : Accounts False False w.slots (update w.buckets p l) w φ)
    (hsub : ∀ t ∈ w.buckets p, t ∈ l) (hl : ∀ t ∈ l, t ∈ w.buckets p ∨ (w.requests p).transfer = some t) :
    Works (clear p w) fun w' ↦ Lined v w' ∧ Steady w w' := by
  rw [clear]
  by_cases htr : (w.requests p).transfer = none
  · rw [if_pos htr]
    refine lined_clearQueues h ⟨φ, ?_⟩
    have hall := hacc.rearrange (.refl _)
      (fun t ht ↦ hacc.bucket p t (by rw [update_self]; exact hsub t ht)) (fun t ht ↦ ?_)
    · rwa [update_eq_self, update_idem, update_eq_self] at hall
    · rw [update_self] at ht
      exact .inl ((hl t ht).resolve_right (by simp [htr]))
  · rw [if_neg htr]
    have hskipped := lined_skipped h hacc.tracks fun t ht ↦ hacc.held p t (World.mem_slots ht)
    refine ((ensures_skipped hacc hsub hl False.elim).both hskipped).bind ?_
    rintro w₁ ⟨hc₁, h₁, hs₁⟩
    exact (lined_clearQueues h₁ hc₁).mono fun _ ↦ And.imp_right hs₁.trans

theorem quiet_downloadingError : Works (downloadingError p piece w) fun o ↦ Quiet w o.2 :=
  safe_newTransfer.bind fun _ ⟨_, hq, _⟩ ↦ hq.trans (.setRequests _)

theorem safe_findIfInAny {f : BlockTransfer → Bool} {r : RequestList} {l : List Bucket} :
    Works (findIfInAny r f w l) fun _ ↦ True := by
  induction l with
  | nil => trivial
  | cons i l ih =>
    refine safe_findIf.bind fun o _ ↦ ?_
    cases o with
    | none => exact ih
    | some t => trivial

section

variable (h : Lined v w) (hcons : Consistent False False w)
  (hlength : ∀ b < w.size, 0 < (w.blocks b).piece.length.toNat)
include h hcons hlength

theorem lined_downloading : Works (downloading p piece w) fun o ↦ Lined v o.2 ∧ Steady w o.2 := by
  obtain ⟨φ, hφ⟩ := hcons
  refine .ite (fun _ ↦ by simp [blockFault]) fun hnone ↦ ?_
  have halive : ∀ t ∈ (w.requests p).buckets, w.heap t ≠ none := fun t ht ↦ by
    obtain ⟨x, hx, -⟩ := hφ.alive (mem_append_right _ ht)
    simp [hx]
  refine ((ensures_findIfInAny (H := False) halive).both safe_findIfInAny).bind ?_
  rintro o ⟨ho, _⟩
  cases o with
  | none => exact quiet_downloadingError.mono fun o hq ↦ ⟨h.of_quiet hq, hq.steady⟩
  | some it =>
    obtain ⟨i, t⟩ := it
    have ht := ho i t rfl
    have hquiet := setRequests (w := w) (p := p) (takeFrom (w.requests p) i t)
    generalize hw₁ : w.setRequests p (takeFrom (w.requests p) i t) = w₁ at hquiet
    have h₁ := h.of_quiet hquiet
    obtain ⟨hacc, hslots⟩ := hφ.takeFrom (not_not.mp hnone) ht hw₁.symm
    have hrest : (φ t).Resting := (hacc.bucket p t (by rw [update_self]; exact mem_cons_self)).2
    dsimp only
    rw [hw₁]
    refine safe_get.bind fun x hx ↦ .either ?_ ?_
    · refine .either ⟨h₁, hquiet.steady⟩ ?_
      refine (lined_release h₁ hacc.tracks hrest.held).bind ?_
      rintro w₂ ⟨h₂, hs₂⟩
      exact quiet_downloadingError.mono fun o hq ↦ ⟨h₂.of_quiet hq, (hquiet.steady.trans hs₂).trans hq.steady⟩
    cases hb : x.block with
    | none => exact ⟨h₁, hquiet.steady⟩
    | some b =>
      have hφt : φ t = .queued b := by
        rcases hacc.tracks.phase_of_block hx hb with hc | hc | hc
        · exact hc
        · rw [hc] at hrest
          exact hrest.elim
        · rw [hc] at hrest
          exact hrest.elim
      have hsize : b < w.size := hquiet.size ▸ (hacc.small t b (by rw [hφt]; rfl)).1
      have hpos : 0 < (w₁.blocks b).piece.length.toNat := by
        rw [hquiet.piece]
        exact hlength b hsize
      exact (lined_transfering h₁ hacc.tracks hφt hpos).bind fun _ ↦ And.imp_right hquiet.steady.trans

theorem lined_step_downloading : Works (step (.downloading p piece) w) fun w' ↦ Lined v w' ∧ Steady w w' := by
  refine ((ensures_downloading hcons).both (lined_downloading h hcons hlength)).bind ?_
  intro ⟨started, w₁⟩ ⟨hafter, h₁, hs₁⟩
  cases started with
  | wanted | unwanted => exact ⟨h₁, hs₁⟩
  | wrongLength =>
    obtain ⟨t, φ, ht, hacc⟩ := hafter
    refine (lined_clear h₁ hacc (fun s hs ↦ mem_cons_of_mem t hs) fun s hs ↦ ?_).mono fun w₂ ⟨h₂, hs₂⟩ ↦
      ⟨h₂, hs₁.trans hs₂⟩
    rcases mem_cons.mp hs with hs | hs
    · exact .inr (hs ▸ ht)
    · exact .inl hs

end

theorem lined_step_request {a : Action} (ha : a.IsRequest) (h : Lined v w) (hcons : Consistent False False w)
    (hr : ∀ t, w.next ≤ t → v.received t = []) (hlength : ∀ b < w.size, 0 < (w.blocks b).piece.length.toNat) :
    Works (step a w) fun w' ↦ Lined v w' ∧ Steady w w' := by
  have hquiet : ∀ {r : Except Fault World}, Works r (Quiet w) →
      Works r fun w' ↦ Lined v w' ∧ Steady w w' := fun hr ↦
    hr.mono fun w' hq ↦ ⟨h.of_quiet hq, hq.steady⟩
  cases a with
  | delegate p bs => exact .either (lined_delegate h hr) ⟨h, .refl w⟩
  | stallInitial p => exact hquiet quiet_stallQueues
  | stallProlonged p => exact hquiet quiet_stallProlonged
  | choked p => exact hquiet quiet_choked
  | delayRemoveChoked p => exact lined_destroy h hcons
  | delayProcessUnordered p =>
    refine (lined_destroy h hcons).bind fun w₁ ⟨h₁, hs₁⟩ ↦ ?_
    exact ⟨h₁.of_quiet (.setRequests _), hs₁.trans (setRequests _).steady⟩
  | downloading p piece => exact lined_step_downloading h hcons hlength
  | clear p =>
    obtain ⟨φ, hφ⟩ := hcons
    refine lined_clear (φ := φ) h ?_ (fun _ ↦ id) fun _ ↦ .inl
    rwa [update_eq_self]
  | connection p connected => exact hquiet (setPeer _)
  | process | skipProcess | finished | skipped | doAllFailed | destroy => cases ha

open Lib.Decimal Lib.Memory Option World

variable {x y : BlockTransfer}

def World.Leads (w : World) (p b : ℕ) : Prop :=
  ∃ t, (w.requests p).transfer = some t ∧ (w.blocks b).leader = some t

theorem Steady.counted (h : Steady w w') (hcount : w.finished = w.completedCount) :
    w'.finished = w'.completedCount := by
  rw [h.finished, hcount, World.completedCount, World.completedCount, h.size]
  exact congrArg Finset.card (Finset.filter_congr fun b _ ↦ by rw [h.state])

variable {H C : Prop}

theorem Accounts.leading (h : Accounts H C w.slots w.buckets w φ)
    (ht : (w.requests p).transfer = some t) (hx : w.heap t = some x) (hb : x.block = some b)
    (hs : x.state = .leader) : φ t = .leading b := by
  rcases h.tracks.phase_of_block hx hb with hφ | hφ | hφ
  · exact absurd hφ (h.started p t (mem_slots ht) (h.not_mem_buckets ht) b)
  · obtain ⟨y, hy, -, hf⟩ := h.alive (mem_slots ht)
    rw [hφ, ← mem_unique hx hy] at hf
    cases hf.symm.trans hs
  · exact hφ

theorem Consistent.put_position (h : Consistent H C w) (ht : (w.requests p).transfer = some t)
    (hx : w.heap t = some x) (n : UInt32) : Consistent H C (w.put t { x with position := x.position + n }) := by
  obtain ⟨φ, hφ⟩ := h
  have hadvance : Safely H (adjustPosition t n w) fun w' ↦
      Calm H C w φ w' φ :=
    ensures_adjustPosition hφ.tracks hφ.balanced (hφ.held p t (mem_slots ht))
  rw [adjustPosition, get_eq hx] at hadvance
  exact hφ.consistent hadvance

namespace Assembly

def progress (d : Assembly) (K : Prop) (S : ℕ → List ℕ) (E : ℕ → Prop) : Progress :=
  ⟨d.memory, d.received, K, S, E⟩

structure Flowing (K : Prop) (S : ℕ → List ℕ) (E : ℕ → Prop) (d : Assembly) : Prop where
  consistent : Consistent False False d.world
  lined : Lined (d.progress K S E) d.world
  laid : d.world.Laid
  counted : d.world.finished = d.world.completedCount
  fresh : ∀ t, d.world.next ≤ t → d.received t = []

abbrev Flows (K : Prop) (S : ℕ → List ℕ) := Flowing K S fun _ ↦ False

structure Sequel (S : ℕ → List ℕ) (d d' : Assembly) : Prop where
  size : d'.world.size = d.world.size
  piece : ∀ b, (d'.world.blocks b).piece = (d.world.blocks b).piece
  completed : ∀ b, (d.world.blocks b).state = .completed →
    (d'.world.blocks b).state = .completed ∧ (d'.world.blocks b).leader = (d.world.blocks b).leader
  failedIndex : d'.failedIndex = d.failedIndex
  failedList : d'.failedList = d.failedList
  failed : d'.failed = d.failed
  attempt : d'.attempt = d.attempt
  stale : ∀ b, ∀ t ∈ S b, d'.received t = d.received t
  received : ∀ b l, (d.world.blocks b).state = .completed → (d.world.blocks b).leader = some l →
    d'.received l = d.received l

variable {K : Prop} {S : ℕ → List ℕ} {E : ℕ → Prop} {d d' d'' : Assembly} {buffer : Bytes}

theorem Sequel.trans (h : Sequel S d d') (h' : Sequel S d' d'') : Sequel S d d'' := by
  refine ⟨h'.size.trans h.size, fun b ↦ (h'.piece b).trans (h.piece b), fun b hb ↦ ?_,
    h'.failedIndex.trans h.failedIndex, h'.failedList.trans h.failedList, h'.failed.trans h.failed,
    h'.attempt.trans h.attempt, fun b t ht ↦ (h'.stale b t ht).trans (h.stale b t ht), fun b l hb hl ↦ ?_⟩
  · obtain ⟨hs, hl⟩ := h.completed b hb
    obtain ⟨hs', hl'⟩ := h'.completed b hs
    exact ⟨hs', hl'.trans hl⟩
  · obtain ⟨hs, hl'⟩ := h.completed b hb
    exact (h'.received b l hs (hl'.trans hl)).trans (h.received b l hb hl)

theorem Sequel.of_world (hw : Steady d.world w) : Sequel S d { d with world := w } :=
  ⟨hw.size, hw.piece, fun b hb ↦ ⟨(hw.state b).trans hb, hw.leader b hb⟩, rfl, rfl, rfl, rfl, fun _ _ _ ↦ rfl,
    fun _ _ _ _ ↦ rfl⟩

theorem Flowing.of_world (h : Flowing K S E d) (hw : Steady d.world w) (hcons : Consistent False False w)
    (hlined : Lined (d.progress K S E) w) : Flowing K S E { d with world := w } :=
  ⟨hcons, hlined, h.laid.of_piece hw.size hw.piece, hw.counted h.counted, fun t ht ↦ h.fresh t (hw.next.trans ht)⟩

variable {E' : ℕ → Prop} {n : UInt32}

theorem Flowing.weaken (h : Flowing K S E d)
    (hE : ∀ b, E b → ¬ E' b → (d.world.blocks b).state ≠ .completed → ∀ l x, (d.world.blocks b).leader = some l →
      d.world.heap l = some x → x.position.toNat < (d.world.blocks b).piece.length.toNat) : Flowing K S E' d := by
  refine ⟨h.consistent, fun b ↦ { h.lined b with unfinished := fun hE' hs l x hl hx ↦ ?_ }, h.laid, h.counted, h.fresh⟩
  by_cases hEb : E b
  · exact hE b hEb hE' hs l x hl hx
  · exact (h.lined b).unfinished hEb hs l x hl hx

theorem Flowing.not_stale (h : Flowing K S E d) (hφ : Accounts False False d.world.slots d.world.buckets d.world φ)
    (ht : (d.world.requests p).transfer = some t) : ∀ b, t ∉ S b := by
  intro b hb
  obtain ⟨new, hsplit, hold, _⟩ := (h.lined b).order
  have hmem : t ∈ (d.world.blocks b).transfers := by
    rw [hsplit]
    exact mem_append_left _ hb
  obtain ⟨hleader, hstate⟩ := hold t hb
  have hheld := hφ.held p t (mem_slots ht)
  obtain ⟨x, hx, _, hfits⟩ := hφ.alive (mem_slots ht)
  have hs := hstate x hx
  have hactive := ((hφ.tracks.placed t).transfers b).mp hmem
  cases hphase : φ t with
  | waiting c =>
    rw [hphase] at hfits
    cases hfits.symm.trans hs
  | leading c =>
    rw [hphase] at hactive
    obtain rfl : c = b := some.inj hactive
    exact hleader (((hφ.tracks.placed t).leader c).mpr (.inl hphase))
  | queued c | detached =>
    rw [hphase] at hactive
    cases hactive
  | free | dissimilar c | completed c | stale c | lost =>
    rw [hphase] at hheld
    exact hheld

theorem Flowing.note {m : ℕ → UInt8} {s : Bytes} (h : Flowing K S E d)
    (ht : (d.world.requests p).transfer = some t) (hx : d.world.heap t = some x)
    (hlined : Lined ⟨m, update d.received t (d.received t ++ s), K, S, E'⟩
      (d.world.put t { x with position := x.position + n })) :
    let d' := Assembly.note t s { d with world := d.world.put t { x with position := x.position + n }, memory := m }
    Flowing K S E' d' ∧ Sequel S d d' := by
  obtain ⟨φ, hφ⟩ := h.consistent
  have hnext : t < d.world.next := hφ.tracks.lt_next t fun hc ↦ by
    have hheld := hφ.held p t (mem_slots ht)
    rw [hc] at hheld
    exact hheld
  refine ⟨⟨h.consistent.put_position ht hx _, hlined, h.laid.of_piece rfl fun _ ↦ rfl,
    Steady.put.counted h.counted, fun u hu ↦ ?_⟩,
    ⟨rfl, fun _ ↦ rfl, fun _ hc ↦ ⟨hc, rfl⟩, rfl, rfl, rfl, rfl, fun c u hu ↦ ?_, fun c l hc hl ↦ ?_⟩⟩
  · have hne : u ≠ t := (hnext.trans_le hu).ne'
    exact (update_of_ne hne _ _).trans (h.fresh u hu)
  · have hne : u ≠ t := fun he ↦ h.not_stale hφ ht c (he ▸ hu)
    exact update_of_ne hne _ _
  have hne : l ≠ t := fun he ↦ by
    subst he
    rcases ((hφ.tracks.placed l).leader c).mp hl with hφl | hφl
    · exact (hφ.tracks.settled c).leading l hφl hc
    have hheld := hφ.held p l (mem_slots ht)
    rw [hφl] at hheld
    exact hheld
  exact update_of_ne hne _ _

def written (d : Assembly) (t : ℕ) (x : BlockTransfer) (buffer : Bytes) : Assembly :=
  note t buffer { d with
    world := d.world.put t { x with position := x.position + UInt32.ofNat buffer.length }
    memory := store d.memory (x.piece.offset + x.position).toNat buffer }

theorem toNat_ofNat_length (h : buffer.length ≤ n.toNat) : (UInt32.ofNat buffer.length).toNat = buffer.length :=
  UInt32.toNat_ofNat_of_lt' (h.trans_lt n.toNat_lt)

theorem toNat_offset {q : Piece} (hpiece : x.piece = q) (hwithin : q.offset.toNat + q.length.toNat < 2 ^ 32)
    (hpos : x.position.toNat ≤ q.length.toNat) :
    (x.piece.offset + x.position).toNat = q.offset.toNat + x.position.toNat := by
  rw [hpiece, UInt32.toNat_add, Nat.mod_eq_of_lt (by omega)]

theorem downChunkProcess_eq (ht : (d.world.requests p).transfer = some t) (hx : d.world.heap t = some x)
    (hfit : x.position.toNat + buffer.length ≤ x.piece.length.toNat) :
    downChunkProcess p buffer d = .ok (UInt32.ofNat buffer.length, d.written t x buffer) := by
  have hle : x.position ≤ x.piece.length := UInt32.le_iff_toNat_le.mpr (by omega)
  have hlength : (UInt32.ofNat buffer.length).toNat = buffer.length := toNat_ofNat_length (n := x.piece.length) (by omega)
  have hmin : min (x.piece.length - x.position) (UInt32.ofNat buffer.length) = UInt32.ofNat buffer.length := by
    apply UInt32.toNat_inj.mp
    rw [UInt32.toNat_min, hlength, UInt32.toNat_sub_of_le _ _ hle]
    omega
  unfold downChunkProcess
  rw [ht]
  dsimp only
  rw [get_eq hx, ok_bind, hmin, adjustPosition, get_eq hx, ok_bind, ok_bind, hlength, take_length]
  rfl

section

variable (h : Flows K S d) (ht : (d.world.requests p).transfer = some t)
  (hx : d.world.heap t = some x)
include h ht hx

theorem Flowing.process (hb : x.block = some b) (hs : x.state = .leader)
    (hfit : x.position.toNat + buffer.length ≤ x.piece.length.toNat) :
    Flowing K S ((d.written t x buffer).world.Leads p) (d.written t x buffer) ∧ Sequel S d (d.written t x buffer) := by
  obtain ⟨φ, hφ⟩ := h.consistent
  have hφt := hφ.leading ht hx hb hs
  have hleader := ((hφ.tracks.placed t).leader b).mpr (.inl hφt)
  have hmem := (h.lined b).led t hleader
  have hpiece := (h.lined b).piece t x (.inr hmem) hx
  have hopen := (hφ.tracks.settled b).leading t hφt
  have hwithin := h.laid.within b
  have hlength : (UInt32.ofNat buffer.length).toNat = buffer.length := toNat_ofNat_length (n := x.piece.length) (by omega)
  rw [hpiece] at hfit
  have hq : (x.position + UInt32.ofNat buffer.length).toNat = x.position.toNat + buffer.length := by
    rw [UInt32.toNat_add, hlength, Nat.mod_eq_of_lt (by omega)]
  have haddr := toNat_offset hpiece hwithin (by omega)
  refine h.note ht hx ?_
  refine h.lined.advance hφ.tracks (by rw [hφt]; rfl) ((h.lined b).advance hmem ?_ hx hopen (by rw [hq]; exact hfit)
    (by omega) ?_ (fun n hn ↦ ?_) (fun hc ↦ absurd hleader hc) (fun _ ↦ ⟨t, ht, hleader⟩) False.elim)
    (fun _ _ ↦ False.elim) fun c hc n hn ↦ ?_
  · intro hc
    have hphase := ((hφ.tracks.placed t).queued b).mp hc
    rw [hφt] at hphase
    cases hphase
  · rw [hq, haddr]
    exact load_store_append
  · rw [haddr]
    exact load_store_of_disjoint (.inl (Nat.add_le_add_left (hn hleader) _))
  · rw [haddr]
    exact h.laid.load_store (fun he ↦ hc he.symm) (Nat.le_add_right _ _) (by omega) hn

theorem Flowing.compare (hφ : Accounts False False d.world.slots d.world.buckets d.world φ)
    (hφt : φ t = .waiting b)
    (hbehind : ∀ l y, (d.world.blocks b).leader = some l → d.world.heap l = some y →
      x.position.toNat + n.toNat ≤ y.position.toNat) :
    let s := load d.memory ((d.world.blocks b).piece.offset.toNat + x.position.toNat) n.toNat
    let d' := Assembly.note t s { d with world := d.world.put t { x with position := x.position + n } }
    Flows K S d' ∧ Sequel S d d' := by
  have hmem := ((hφ.tracks.placed t).transfers b).mpr (by rw [hφt]; rfl)
  obtain ⟨x', hx', _, hfits⟩ := hφ.alive (mem_slots ht)
  obtain rfl := mem_unique hx hx'
  rw [hφt] at hfits
  have hstate : x.state = .notLeader := hfits
  have hopen := (h.lined b).not_completed hmem hx hstate
  obtain ⟨l, hl, _⟩ := (h.lined b).behind t x hmem hx hstate
  have hlmem := (h.lined b).led l hl
  obtain ⟨y, hy, _⟩ := hφ.tracks.alive l fun hc ↦ by
    have hact := ((hφ.tracks.placed l).transfers b).mp hlmem
    rw [hc] at hact
    cases hact
  have hle := hbehind l y hl hy
  have hylen := (h.lined b).fits l y hlmem hy
  have hq : (x.position + n).toNat = x.position.toNat + n.toNat := by
    rw [UInt32.toNat_add, Nat.mod_eq_of_lt (by have := y.position.toNat_lt; omega)]
  intro s d'
  refine h.note ht hx ?_
  refine h.lined.advance hφ.tracks (by rw [hφt]; rfl) ((h.lined b).advance hmem ?_ hx hopen (by omega) (by omega) ?_
    (fun _ _ ↦ rfl) (fun _ ↦ ⟨hstate, fun l' y' hl' hy' ↦ hq ▸ hbehind l' y' hl' hy'⟩)
    (fun hc ↦ absurd hc (hφ.tracks.not_leader hφt)) id)
    (fun _ _ ↦ id) fun _ _ _ _ ↦ rfl
  · intro hc
    have hphase := ((hφ.tracks.placed t).queued b).mp hc
    rw [hφt] at hphase
    cases hphase
  · rw [hq]
    exact load_add _

end

theorem Flowing.put_outside (h : Flowing K S E d) (ht : (d.world.requests p).transfer = some t)
    (hx : d.world.heap t = some x) (hout : ∀ c, ¬ d.world.Has c t) (n : UInt32) (s : Bytes) :
    let d' := Assembly.note t s { d with world := d.world.put t { x with position := x.position + n } }
    Flowing K S E d' ∧ Sequel S d d' :=
  h.note ht hx (h.lined.put_outside hout _)

theorem Sequel.refl (d : Assembly) : Sequel S d d := .of_world (.refl d.world)

section

variable (h : Flows K S d) (ht : (d.world.requests p).transfer = some t)
include h ht

theorem flowing_dissimilar (hφ : Accounts False False d.world.slots d.world.buckets d.world φ)
    (hφt : φ t = .waiting b) :
    Works (do
      let w ← RequestList.transferDissimilar p d.world
      match (w.requests p).transfer with
      | none => .error .dangling
      | some dummy =>
        let w ← adjustPosition dummy n w
        .ok (n, { d with world := w })) fun o ↦ Flows K S o.2 ∧ Sequel S d o.2 := by
  refine ((ensures_dissimilar hφ ht hφt id).both (lined_dissimilar h.lined hφ.tracks hφt ht)).bind ?_
  intro w₁ ⟨⟨φ₁, hφ₁, dummy, hdummy⟩, hl₁, hs₁, hout⟩
  rw [hdummy]
  dsimp only
  obtain ⟨z, hz, _⟩ := hφ₁.alive (mem_slots hdummy)
  rw [adjustPosition, get_eq hz, ok_bind, ok_bind]
  have h₁ : Flows K S { d with world := w₁ } := h.of_world hs₁ ⟨φ₁, hφ₁⟩ hl₁
  have hput := hl₁.put_outside (y := { z with position := z.position + n }) (hout dummy hdummy) (d.received dummy)
  rw [show update (d.progress K S fun _ ↦ False).received dummy (d.received dummy) = d.received from
    update_eq_self _ _] at hput
  have hput₁ : Steady w₁ (w₁.put dummy { z with position := z.position + n }) := .put
  exact ⟨h₁.of_world hput₁ (h₁.consistent.put_position hdummy hz n) hput, .of_world (hs₁.trans hput₁)⟩

theorem flowing_changeLeader {l : ℕ} (hx : d.world.heap t = some x)
    (hφ : Accounts False False d.world.slots d.world.buckets d.world φ) (hφt : φ t = .waiting b)
    (hl : (d.world.blocks b).leader = some l) (hy : d.world.heap l = some y) (hpos : x.position = y.position) :
    Works (Block.changeLeader b t d.world) fun w' ↦
      w'.heap t = some { x with state := .leader } ∧ (w'.requests p).transfer = some t ∧
      Flows K S { d with world := w' } ∧ Sequel S d { d with world := w' } := by
  have hchange := ensures_changeLeader (C := False) hφ.tracks hφ.balanced hφt
  refine (hchange.both (lined_changeLeader h.lined hφ.tracks hφt hx hl hy hpos id)).mono ?_
  intro w₁ ⟨⟨φ₁, hadvance⟩, hl₁, hs₁, hx₁⟩
  exact ⟨hx₁, by rw [hadvance.kept.requests_eq, ht], h.of_world hs₁ (hφ.consistent hadvance) hl₁, .of_world hs₁⟩

theorem flowing_downChunkSkipProcess (hx : d.world.heap t = some x) (hs : x.state ≠ .leader)
    (hbuffer : buffer.length ≤ (x.piece.length - x.position).toNat) :
    Works (downChunkSkipProcess p buffer d) fun o ↦
      Flowing K S (o.2.world.Leads p) o.2 ∧ Sequel S d o.2 := by
  have hweak : ∀ {d' : Assembly}, Flows K S d' → Flowing K S (d'.world.Leads p) d' :=
    fun h' ↦ h'.weaken fun _ ↦ False.elim
  obtain ⟨φ, hφ⟩ := h.consistent
  have hlength : min (UInt32.ofNat buffer.length) (x.piece.length - x.position) = UInt32.ofNat buffer.length := by
    apply UInt32.toNat_inj.mp
    rw [UInt32.toNat_min, toNat_ofNat_length hbuffer]
    omega
  unfold downChunkSkipProcess
  rw [ht]
  dsimp only
  rw [get_eq hx, ok_bind, hlength]
  cases hb : x.block with
  | none =>
    have hφt : φ t = .detached := by
      obtain ⟨y, hy, hblock, _⟩ := hφ.alive (mem_slots ht)
      obtain rfl := mem_unique hx hy
      exact Phase.eq_detached (hφ.held p t (mem_slots ht)) (hblock.symm.trans hb)
    have hout : ∀ c, ¬ d.world.Has c t := fun c hc ↦ by
      have hhome := hφ.tracks.home_of_has hc
      rw [hφt] at hhome
      cases hhome
    rw [adjustPosition, get_eq hx, ok_bind, ok_bind]
    obtain ⟨hflow, hseq⟩ := h.put_outside ht hx hout (UInt32.ofNat buffer.length)
      (buffer.take (UInt32.ofNat buffer.length).toNat)
    exact ⟨hweak hflow, hseq⟩
  | some b =>
    have hφt := hφ.waiting ht hx hb hs
    have hmem := ((hφ.tracks.placed t).transfers b).mpr (by rw [hφt]; rfl)
    have hstate : x.state = .notLeader := by
      obtain ⟨y, hy, _, hfits⟩ := hφ.alive (mem_slots ht)
      obtain rfl := mem_unique hx hy
      rwa [hφt] at hfits
    have hopen := (h.lined b).not_completed hmem hx hstate
    obtain ⟨l, hl, hbehind⟩ := (h.lined b).behind t x hmem hx hstate
    refine (safe_isTransfering hl).bind ?_
    rintro active ⟨y, hy, hactive⟩
    have hpos := hbehind y hy
    have hposition : ((d.world.blocks b).leader.map d.world.positionOf).getD 0 = y.position := by
      rw [hl, Option.map_some, getD_some, positionOf_eq hy]
    rw [hposition]
    refine .ite (fun hc ↦ ?_) fun _ ↦ .ite (fun hc ↦ ?_) fun _ ↦ ?_
    · rw [hactive, (h.lined b).not_finished id hopen hl hy] at hc
      cases hc
    · exact absurd (UInt32.lt_iff_toNat_lt.mp hc) (not_lt.mpr hpos)
    refine .ite (fun _ ↦ ?_) fun hsame ↦ ?_
    · exact (flowing_dissimilar h ht hφ hφt).mono fun o ↦ And.imp_left hweak
    have hpiece := (h.lined b).piece t x (.inr hmem) hx
    have hylen := (h.lined b).fits l y ((h.lined b).led l hl) hy
    have hxy := UInt32.le_iff_toNat_le.mpr hpos
    rw [UInt32.toNat_sub_of_le _ _ (UInt32.le_iff_toNat_le.mpr (by rw [hpiece]; omega))] at hbuffer
    have hlen : (UInt32.ofNat buffer.length).toNat = buffer.length :=
      toNat_ofNat_length (hbuffer.trans (Nat.sub_le _ _))
    generalize hc : min (UInt32.ofNat buffer.length) (y.position - x.position) = c at hsame
    have hcNat : c.toNat = min buffer.length (y.position.toNat - x.position.toNat) := by
      rw [← hc, UInt32.toNat_min, hlen, UInt32.toNat_sub_of_le _ _ hxy]
    rw [not_not, toNat_offset hpiece (h.laid.within b) (by omega)] at hsame
    obtain ⟨hflow, hseq⟩ := h.compare ht hx hφ hφt (n := c) fun l' y' hl' hy' ↦ by
      obtain rfl := mem_unique hl hl'
      obtain rfl := mem_unique hy hy'
      omega
    rw [adjustPosition, get_eq hx, ok_bind, ok_bind, ← hsame]
    refine .ite (fun _ ↦ ⟨hweak hflow, hseq⟩) fun hless ↦ ?_
    -- the transfer has come as far as the leader, with bytes left
    have hcless : c.toNat < buffer.length := by
      refine lt_of_le_of_ne (by omega) fun he ↦ hless (UInt32.toNat_inj.mp ?_)
      rw [he, hlen]
    have hx₁ : (d.world.put t { x with position := x.position + c }).heap t = some { x with position := x.position + c } := by
      rw [heap_put, update_self]
    have hpos₁ : x.position + c = y.position := by
      apply UInt32.toNat_inj.mp
      rw [UInt32.toNat_add, Nat.mod_eq_of_lt (by have := y.position.toNat_lt; omega)]
      omega
    have hleft : (UInt32.ofNat buffer.length - c).toNat = (buffer.drop c.toNat).length := by
      rw [UInt32.toNat_sub_of_le _ _ (UInt32.le_iff_toNat_le.mpr (by omega)), hlen, length_drop]
    rw [hleft, take_length]
    obtain ⟨φ₁, hφ₁⟩ := hflow.consistent
    have hφt₁ := hφ₁.waiting ht hx₁ hb hs
    refine (flowing_changeLeader hflow ht hx₁ hφ₁ hφt₁ hl ?_ hpos₁).bind ?_
    · have hlt : l ≠ t := fun he ↦ hφ.tracks.not_leader hφt (he ▸ hl)
      exact (update_of_ne hlt _ _).trans hy
    rintro w₂ ⟨hx₂, ht₂, hflow₂, hseq₂⟩
    have hfit₂ : (x.position + c).toNat + (buffer.drop c.toNat).length ≤ x.piece.length.toNat := by
      rw [length_drop, hpos₁]
      omega
    rw [downChunkProcess_eq ht₂ hx₂ hfit₂, ok_bind]
    refine .ite (fun hc ↦ absurd (UInt32.toNat_inj.mp ?_) hc) fun _ ↦ ?_
    · rw [toNat_ofNat_length hleft.ge, hleft]
    · obtain ⟨hflow₃, hseq₃⟩ := hflow₂.process ht₂ hx₂ hb rfl hfit₂
      exact ⟨hflow₃, (hseq.trans hseq₂).trans hseq₃⟩

end

theorem lined_finished {v : Progress} (h : Lined v w) (hφ : Accounts False False w.slots w.buckets w φ)
    (ht : (w.requests p).transfer = some t) (hx : w.heap t = some x) (hs : x.state = .leader)
    (hfinished : x.isFinished = true) (hcount : w.finished = w.completedCount)
    (hending : ∀ c, v.ending c → φ t = .leading c) :
    Works (RequestList.finished p w) fun w' ↦ Lined { v with ending := fun _ ↦ False } w' ∧
      ∃ b < w.size, (w.blocks b).state ≠ .completed ∧ Completing b w w' := by
  unfold RequestList.finished
  rw [ht]
  dsimp only
  rw [get_eq hx, ok_bind]
  cases hb : x.block with
  | none => simp [blockFault]
  | some b =>
    have hφt := hφ.leading ht hx hb hs
    have hsize := (hφ.small t b (by rw [hφt]; rfl)).1
    have h₀ := hφ.of_requests (p := p) { w.requests p with transfer := none }
    refine (lined_completed (E := fun _ ↦ False) (h.of_quiet (.setRequests _)) h₀.tracks hφt hx hfinished hsize hcount
      fun c hc hE ↦ ?_).bind ?_
    · have hphase := hending c hE
      rw [hφt] at hphase
      exact hc (Phase.leading.inj hphase).symm
    rintro o ⟨h₁, hc⟩
    exact ⟨h₁, b, hsize, (hφ.tracks.settled b).leading t hφt, hc.next, hc.size, hc.finished, hc.piece, hc.state,
      hc.leader, hc.completed⟩

theorem flowing_downChunkFinished (h : Flowing K S (d.world.Leads p) d) :
    Works (downChunkFinished p d) fun d' ↦ Flows K S d' ∧ Sequel S d d' := by
  unfold downChunkFinished
  cases ht : (d.world.requests p).transfer with
  | none => exact id
  | some t =>
    obtain ⟨φ, hφ⟩ := h.consistent
    have hslot := mem_slots ht
    have hleads : ∀ c, d.world.Leads p c → (d.world.blocks c).leader = some t ∧ φ t = .leading c := by
      intro c ⟨t', ht', hl⟩
      obtain rfl := mem_unique ht ht'
      refine ⟨hl, (((hφ.tracks.placed t).leader c).mp hl).resolve_right fun hc ↦ ?_⟩
      have hheld := hφ.held p t hslot
      rw [hc] at hheld
      exact hheld
    refine safe_get.bind fun x hx ↦ .ite (fun hfinished ↦ .ite (fun hs ↦ ?_) fun hs ↦ ?_) fun hmore ↦ ?_
    · have hlined := lined_finished h.lined hφ ht hx hs hfinished h.counted fun c hc ↦ (hleads c hc).2
      refine ((ensures_finished hφ False.elim).both hlined).bind ?_
      intro w₁ ⟨hc₁, hl₁, b, hb, hopen, hcompleting⟩
      refine ⟨⟨hc₁, hl₁, h.laid.of_piece hcompleting.size hcompleting.piece, hcompleting.count hb hopen h.counted,
        fun u hu ↦ h.fresh u (hcompleting.next.trans hu)⟩,
        ⟨hcompleting.size, hcompleting.piece, fun c hc ↦ ?_, rfl, rfl, rfl, rfl, fun _ _ _ ↦ rfl, fun _ _ _ _ ↦ rfl⟩⟩
      have hne : c ≠ b := fun he ↦ hopen (he ▸ hc)
      exact ⟨(hcompleting.state c hne).trans hc, hcompleting.leader c hne⟩
    · have h₀ : Flows K S d := h.weaken fun c hc ↦ by
        obtain ⟨y, hy, _, hfits⟩ := hφ.alive hslot
        rw [(hleads c hc).2, ← mem_unique hx hy] at hfits
        exact absurd hfits hs
      have hskipped := lined_skipped h₀.lined hφ.tracks fun u hu ↦ hφ.held p u (mem_slots hu)
      have hacc : Accounts False False d.world.slots (update d.world.buckets p (d.world.buckets p)) d.world φ := by
        rwa [update_eq_self]
      refine ((ensures_skipped hacc (fun _ ↦ id) (fun _ ↦ .inl) False.elim).both hskipped).bind ?_
      intro w₁ ⟨hc₁, hl₁, hs₁⟩
      exact ⟨h₀.of_world hs₁ hc₁ hl₁, .of_world hs₁⟩
    · refine ⟨h.weaken fun c hc _ _ l y hl hy ↦ ?_, .refl d⟩
      obtain ⟨hlead, _⟩ := hleads c hc
      obtain rfl := mem_unique hlead hl
      obtain rfl := mem_unique hx hy
      have hmem := (h.lined c).led t hlead
      refine lt_of_le_of_ne ((h.lined c).fits t x hmem hx) fun he ↦ hmore ?_
      rw [BlockTransfer.isFinished, (h.lined c).piece t x (.inr hmem) hx]
      exact decide_eq_true (UInt32.toNat_inj.mp he)

theorem flowing_receive {bytes : Bytes} (h : Flows K S d) :
    Works (receive p bytes d) fun d' ↦ Flows K S d' ∧ Sequel S d d' := by
  unfold receive
  cases ht : (d.world.requests p).transfer with
  | none => exact ⟨h, .refl d⟩
  | some t =>
    obtain ⟨φ, hφ⟩ := h.consistent
    refine safe_get.bind fun x hx ↦ ?_
    have hbuffer : (bytes.take (x.piece.length - x.position).toNat).length ≤ (x.piece.length - x.position).toNat :=
      length_take_le _ _
    refine .ite (fun hs ↦ .ite (fun _ ↦ ⟨h, .refl d⟩) fun hb ↦ ?_) fun hs ↦ ?_
    · obtain ⟨b, hb⟩ := ne_none_iff_exists'.mp hb
      have hφt := hφ.leading ht hx hb hs
      have hmem := (h.lined b).led t (((hφ.tracks.placed t).leader b).mpr (.inl hφt))
      have hpos : x.position.toNat ≤ x.piece.length.toNat := by
        rw [(h.lined b).piece t x (.inr hmem) hx]
        exact (h.lined b).fits t x hmem hx
      rw [UInt32.toNat_sub_of_le _ _ (UInt32.le_iff_toNat_le.mpr hpos)] at hbuffer ⊢
      have hfit : x.position.toNat + (bytes.take (x.piece.length.toNat - x.position.toNat)).length ≤
          x.piece.length.toNat := by omega
      rw [downChunkProcess_eq ht hx hfit, ok_bind]
      obtain ⟨h₁, hseq₁⟩ := h.process ht hx hb hs hfit
      exact (flowing_downChunkFinished h₁).mono fun _ ↦ And.imp_right hseq₁.trans
    · refine (flowing_downChunkSkipProcess h ht hx hs hbuffer).bind ?_
      rintro ⟨n, d₁⟩ ⟨h₁, hseq₁⟩
      refine .either (by simp [blockFault]) ?_
      exact (flowing_downChunkFinished h₁).mono fun _ ↦ And.imp_right hseq₁.trans

theorem flowing_request {a : Action} (ha : a.IsRequest) (h : Flows K S d) :
    Works (d.lift (LibTorrent.step a)) fun d' ↦ Flows K S d' ∧ Sequel S d d' := by
  have hcons := ensures_step a h.consistent False.elim False.elim
  refine (hcons.both (lined_step_request ha h.lined h.consistent h.fresh h.laid.positive)).bind ?_
  intro w₁ ⟨hc₁, hl₁, hs₁⟩
  exact ⟨h.of_world hs₁ hc₁ hl₁, .of_world hs₁⟩

end Assembly

end LibTorrent
