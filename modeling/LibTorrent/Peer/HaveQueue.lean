import LibTorrent.Peer.Announcing
import Mathlib.Data.List.DropRight

namespace LibTorrent

open Lib.Outcome List

namespace PeerConnection

open Message

variable {s t u : PeerConnection} {said rest : List (ℕ × ℕ)}

/-- The end of `receive_tick`: what is older than ten minutes is dropped from the have queue. -/
def pruneHaves (s : PeerConnection) : PeerConnection :=
  { s with haveQueue := s.haveQueue.rdropWhile fun h ↦ h.1 + 600000000 ≤ s.now }

def pendingHaves (s : PeerConnection) : List (ℕ × ℕ) := s.haveQueue.reverse.filter fun h ↦ s.haveTimer ≤ h.1

/-- Some of these entries are told, in their order, and the timer is set behind the last one. -/
structure Tells (s t : PeerConnection) (said rest : List (ℕ × ℕ)) : Prop where
  pending : s.pendingHaves = said ++ rest
  written : indices t.written = indices s.written ++ said.map Prod.snd
  haveTimer : t.haveTimer = said.getLast?.elim s.haveTimer fun h ↦ h.1 + 1

theorem tells_of_outgoing (h : t.core.outgoing = s.core.outgoing) : Tells s t [] s.pendingHaves :=
  ⟨rfl, (congrArg Outgoing.told h).trans (append_nil _).symm, congrArg Outgoing.haveTimer h⟩

theorem writeHaves_eq (h : ℕ × ℕ) (haves : List (ℕ × ℕ)) (s : PeerConnection) :
    ∃ said e rest, h :: haves = said ++ e :: rest ∧
      indices (writeHaves (h :: haves) s).written = indices s.written ++ (said ++ [e]).map Prod.snd ∧
      (writeHaves (h :: haves) s).haveTimer = e.1 + 1 ∧
      (rest = [] ∨ bufferSize < (writeHaves (h :: haves) s).bufferEnd + 9) := by
  induction haves generalizing h s with
  | nil =>
    have hone : writeHaves [h] s = { s.write (.have h.2) with haveTimer := h.1 + 1 } := by
      rw [writeHaves]
      split_ifs <;> rfl
    rw [hone]
    exact ⟨[], h, [], rfl, indices_append .., rfl, .inl rfl⟩
  | cons h' haves ih =>
    rw [writeHaves]
    split_ifs with hmore
    · obtain ⟨said, e, rest, hsplit, htold, htimer, hrest⟩ := ih h' { s.write (.have h.2) with haveTimer := h.1 + 1 }
      refine ⟨h :: said, e, rest, by rw [hsplit]; rfl, ?_, htimer, hrest⟩
      rw [htold, write, indices_append, append_assoc]
      rfl
    refine ⟨[], h, h' :: haves, rfl, indices_append .., rfl, .inr ?_⟩
    rw [canWrite, reservedLeft, decide_eq_true_iff] at hmore
    omega

theorem pendingHaves_eq (hsorted : s.haveQueue.Pairwise fun h h' ↦ h'.1 < h.1) :
    (s.haveQueue.takeWhile fun h ↦ decide (s.haveTimer ≤ h.1)).reverse = s.pendingHaves := by
  rw [pendingHaves, filter_reverse]
  congr 1
  generalize s.haveQueue = queue at hsorted
  induction queue with
  | nil => rfl
  | cons h queue ih =>
    obtain ⟨hlater, hsorted⟩ := pairwise_cons.mp hsorted
    by_cases hle : s.haveTimer ≤ h.1
    · rw [takeWhile_cons_of_pos (by simpa using hle), filter_cons_of_pos (by simpa using hle), ih hsorted]
    rw [takeWhile_cons_of_neg (by simpa using hle), filter_cons_of_neg (by simpa using hle)]
    refine (filter_eq_nil_iff.mpr fun x hx hpos ↦ hle ?_).symm
    exact (of_decide_eq_true hpos).trans (hlater x hx).le

theorem tells_fillHaves (hleech : s.type = .leech) (hsorted : s.haveQueue.Pairwise fun h h' ↦ h'.1 < h.1) :
    ∃ said rest, Tells s s.fillHaves said rest ∧ (rest = [] ∨ bufferSize < s.fillHaves.bufferEnd + 9) := by
  have hpending := pendingHaves_eq hsorted
  have hstay : s.pendingHaves = [] ∨ bufferSize < s.bufferEnd + 9 →
      ∃ said rest, Tells s s said rest ∧ (rest = [] ∨ bufferSize < s.bufferEnd + 9) :=
    fun hrest ↦ ⟨[], s.pendingHaves, tells_of_outgoing rfl, hrest⟩
  rw [fillHaves]
  split
  · rename_i hqueue
    refine hstay (.inl ?_)
    rw [pendingHaves, hqueue]
    rfl
  rename_i newest queue hqueue
  split_ifs with hc
  · rw [Bool.and_eq_true, Bool.and_eq_true, decide_eq_true_iff, decide_eq_true_iff] at hc
    rw [hpending]
    cases hlist : s.pendingHaves with
    | nil =>
      rw [hqueue, takeWhile_cons_of_pos (by simpa using hc.1.2), reverse_cons, hlist] at hpending
      exact absurd hpending (append_ne_nil_of_right_ne_nil _ (cons_ne_nil _ _))
    | cons h haves =>
      obtain ⟨said, e, rest, hsplit, htold, htimer, hrest⟩ := writeHaves_eq h haves s
      refine ⟨said ++ [e], rest, ⟨?_, htold, ?_⟩, hrest⟩
      · rw [hlist, hsplit, append_assoc]
        rfl
      · rw [htimer, List.getLast?_append]
        rfl
  · refine hstay ?_
    rw [Bool.and_eq_true, Bool.and_eq_true, decide_eq_true_iff, decide_eq_true_iff, hleech] at hc
    by_cases hnew : s.haveTimer ≤ newest.1
    · right
      have hfull : ¬ s.canWrite 9 = true := fun hroom ↦ hc ⟨⟨rfl, hnew⟩, hroom⟩
      rw [canWrite, reservedLeft, decide_eq_true_iff] at hfull
      omega
    left
    rw [← hpending, hqueue, takeWhile_cons_of_neg (by simpa using hnew)]
    rfl

/-- A step that leaves the have queue alone, and may tell the peer of some of its entries. -/
structure Relays (s t : PeerConnection) (said rest : List (ℕ × ℕ)) : Prop extends Tells s t said rest where
  type : t.type = s.type
  now : s.now ≤ t.now
  haveQueue : t.haveQueue = s.haveQueue

theorem relays_of_outgoing (h : t.core.outgoing = s.core.outgoing) : Relays s t [] s.pendingHaves :=
  ⟨tells_of_outgoing h, congrArg Outgoing.type h, (congrArg Outgoing.now h).ge, congrArg Outgoing.haveQueue h⟩

theorem Relays.of_outgoing {s' t' : PeerConnection} (h : Relays s t said rest)
    (hs : s.core.outgoing = s'.core.outgoing) (ht : t'.core.outgoing = t.core.outgoing) : Relays s' t' said rest := by
  have hqueue : s.haveQueue = s'.haveQueue := congrArg Outgoing.haveQueue hs
  have htimer : s.haveTimer = s'.haveTimer := congrArg Outgoing.haveTimer hs
  have htold : indices s.written = indices s'.written := congrArg Outgoing.told hs
  refine ⟨⟨?_, ?_, ?_⟩, ?_, ?_, ?_⟩
  · rw [← h.pending, pendingHaves, pendingHaves, hqueue, htimer]
  · exact htold ▸ (congrArg Outgoing.told ht).trans h.written
  · exact htimer ▸ (congrArg Outgoing.haveTimer ht).trans h.haveTimer
  · exact (congrArg Outgoing.type ht).trans (h.type.trans (congrArg Outgoing.type hs))
  · exact (congrArg Outgoing.now hs).ge.trans (h.now.trans (congrArg Outgoing.now ht).ge)
  · exact (congrArg Outgoing.haveQueue ht).trans (h.haveQueue.trans hqueue)

theorem yields_fillWriteBuffer_tells (i : FillInput) (hleech : s.type = .leech) (h : s.core.Sound) :
    Yields (s.fillWriteBuffer i) fun t ↦
      ∃ said rest, Relays s t said rest ∧ (rest = [] ∨ bufferSize < t.bufferEnd + 9) := by
  have hchoke := core_fillChoke s
  have hinterested := aside_fillInterested (hchoke.symm ▸ h)
  refine (yields_fillRequests i hinterested.sound).bind fun t ht ↦ ?_
  have hbefore : t.core.outgoing = s.core.outgoing :=
    (outgoing_of_core ht.core_eq (by rw [ht.tries])).trans (hinterested.outgoing.trans (congrArg Core.outgoing hchoke))
  have htype : t.type = .leech := (congrArg Outgoing.type hbefore).trans hleech
  obtain ⟨said, rest, htells, hroom⟩ := tells_fillHaves htype ht.sound.sorted
  obtain ⟨hbase, hup⟩ := base_fillHaves t
  have htype' : t.fillHaves.type = t.type := congrArg (fun v ↦ v.interest.type) hbase
  have hrelays : Relays t t.fillHaves said rest :=
    ⟨htells, htype', (congrArg Base.now hbase).ge, congrArg Base.haveQueue hbase⟩
  rw [show t.fillHaves.fillOffer i = .ok t.fillHaves from if_neg (by simp [htype', htype]), ok_bind]
  have hcancels := (kept_fillCancels t.fillHaves).upKept (hup ▸ ht.sound.up)
  refine (yields_fillLast i hcancels.listed).mono fun v hv ↦ ?_
  have hbehind := hcancels.trans hv
  exact ⟨said, rest, hrelays.of_outgoing hbefore hbehind.outgoing, hroom.imp id fun hfull ↦
    hfull.trans_le (Nat.add_le_add_right hbehind.bufferEnd 9)⟩

theorem yields_writeTurn_relays (i : TurnInput) (hleech : s.type = .leech) (h : s.core.Sound) :
    Yields (s.writeTurn i) fun r ↦ ∃ said rest, Relays s r.2 said rest := by
  have hwrote {t : PeerConnection} (ht : Wrote s t) : ∃ said rest, Relays s t said rest :=
    ⟨_, _, relays_of_outgoing (by rw [ht.core]; rfl)⟩
  rw [writeTurn]
  split
  · refine (yields_fillWriteBuffer_tells i.fill hleech h).bind ?_
    rintro t ⟨said, rest, hrelays, _⟩
    refine .either ⟨said, rest, hrelays.of_outgoing rfl rfl⟩ ⟨said, rest, hrelays.of_outgoing rfl ?_⟩
    rw [(wrote_writeMsg i (s := { t with upState := .msg }) rfl).core]
    rfl
  · rename_i hstate
    exact hwrote (wrote_writeMsg i hstate)
  · rename_i hstate
    exact hwrote (wrote_upChunk i (h.position (by simp [core, hstate])))
  · rename_i hstate
    exact (yields_upExtension i (h.position (by simp [core, hstate]))).mono fun r hr ↦ hwrote hr

def Event.queues : Event → Bool
  | .completed _ | .expired _ => true
  | _ => false

theorem yields_step_relays (e : Event) (he : e.queues = false) (hleech : s.type = .leech) (h : s.core.Sound) :
    Yields (step e s) fun t ↦ ∃ said rest, Relays s t said rest := by
  cases haside : e.isAside with
  | true => exact (yields_aside e haside h).mono fun t ht ↦ ⟨_, _, relays_of_outgoing ht.outgoing⟩
  | false =>
    cases e with
    | tick passed =>
      have hsame : Tells s s [] s.pendingHaves := tells_of_outgoing rfl
      exact ⟨_, _, ⟨hsame.pending, hsame.written, hsame.haveTimer⟩, rfl, Nat.le_add_right _ _, rfl⟩
    | turn i =>
      refine .either ?_ ⟨_, _, relays_of_outgoing rfl⟩
      exact Ensures.map (yields_writeTurn_relays i hleech h)
    | completed | expired => exact absurd he Bool.noConfusion
    | _ => exact absurd haside Bool.noConfusion

def oldHaves (s : PeerConnection) : List (ℕ × ℕ) := s.haveQueue.reverse.takeWhile fun h ↦ h.1 + 600000000 ≤ s.now

/-- The run of a connection, with all the entries that its have queue has had since the start and those that were dropped
before the peer was told of them. -/
inductive Telling (c : Setup) : PeerConnection → List (ℕ × ℕ) → List (ℕ × ℕ) → Prop
  | start : Telling c (start c) c.haveQueue.reverse []
  | completed {s : PeerConnection} {entries lost : List (ℕ × ℕ)} (index : ℕ) (h : Telling c s entries lost) :
      Telling c (s.pushHave index) (entries ++ (s.pushHave index).haveQueue.head?.toList) lost
  | pruned {s : PeerConnection} {entries lost : List (ℕ × ℕ)} (h : Telling c s entries lost) :
      Telling c s.pruneHaves entries (lost ++ s.oldHaves.filter fun e ↦ s.haveTimer ≤ e.1)
  | step {s t : PeerConnection} {entries lost : List (ℕ × ℕ)} (e : Event) (he : e.queues = false)
      (h : Telling c s entries lost) (hstep : step e s = .ok t) : Telling c t entries lost

/-- What holds at any time of the entries that the peer was told of: the haves that were written are those of the entries
that the timer has passed. -/
structure Told (c : Setup) (s : PeerConnection) (entries lost told : List (ℕ × ℕ)) : Prop where
  leech : s.type = .leech
  core : s.core.Sound
  sorted : entries.Pairwise fun e e' ↦ e.1 < e'.1
  queue : ∀ e ∈ s.haveQueue, e ∈ entries ∧ e ∉ lost
  written : indices s.written = told.map Prod.snd
  order : told.Pairwise fun e e' ↦ e.1 < e'.1
  mem : ∀ e, e ∈ told ↔ e ∈ entries ∧ c.haveTimer ≤ e.1 ∧ e.1 < s.haveTimer ∧ e ∉ lost
  start : c.haveTimer ≤ s.haveTimer
  timer : s.haveTimer = c.haveTimer ∨ ∃ e ∈ entries, s.haveTimer = e.1 + 1
  old : ∀ e ∈ entries, e ∈ s.haveQueue ∨ e.1 + 600000000 ≤ s.now
  waiting : ∀ e ∈ entries, s.haveTimer ≤ e.1 → e ∈ lost ∨ e ∈ s.haveQueue
  lost : ∀ e ∈ lost, e ∈ entries ∧ e.1 + 600000000 ≤ s.now

variable {c : Setup} {entries lost told : List (ℕ × ℕ)}

theorem mem_pendingHaves {e : ℕ × ℕ} : e ∈ s.pendingHaves ↔ e ∈ s.haveQueue ∧ s.haveTimer ≤ e.1 := by
  rw [pendingHaves, mem_filter, mem_reverse, decide_eq_true_iff]

theorem pairwise_pendingHaves (h : s.core.Sound) : s.pendingHaves.Pairwise fun e e' ↦ e.1 < e'.1 :=
  (pairwise_reverse.mpr h.sorted).sublist filter_sublist

theorem Told.relays (h : Told c s entries lost told) (hr : Relays s t said rest) (hcore : t.core.Sound) :
    ∃ told, Told c t entries lost told := by
  have hold : ∀ e ∈ entries, e ∈ t.haveQueue ∨ e.1 + 600000000 ≤ t.now := fun e he ↦
    (h.old e he).imp (hr.haveQueue ▸ id) fun hle ↦ hle.trans hr.now
  have hlost : ∀ e ∈ lost, e ∈ entries ∧ e.1 + 600000000 ≤ t.now := fun e he ↦
    ⟨(h.lost e he).1, (h.lost e he).2.trans hr.now⟩
  have hqueue : ∀ e ∈ t.haveQueue, e ∈ entries ∧ e ∉ lost := hr.haveQueue ▸ h.queue
  have hpending := hr.pending
  have hsorted := pairwise_pendingHaves h.core
  obtain rfl | ⟨said, e, rfl⟩ := eq_nil_or_concat' said
  · have htimer := hr.haveTimer
    refine ⟨told, hr.type.trans h.leech, hcore, h.sorted, hqueue, ?_, h.order, htimer ▸ h.mem, htimer ▸ h.start,
      htimer ▸ h.timer, hold, ?_, hlost⟩
    · rw [hr.written, h.written]
      exact append_nil _
    · rw [htimer, hr.haveQueue]
      exact h.waiting
  have htimer : t.haveTimer = e.1 + 1 := by
    rw [hr.haveTimer, List.getLast?_append]
    rfl
  rw [hpending] at hsorted
  obtain ⟨hsaid, -, hrest⟩ := pairwise_append.mp hsorted
  have hin : ∀ x ∈ said ++ [e], (x ∈ s.haveQueue ∧ s.haveTimer ≤ x.1) ∧ x.1 ≤ e.1 := by
    intro x hx
    refine ⟨mem_pendingHaves.mp (hpending ▸ mem_append_left rest hx), ?_⟩
    rcases mem_append.mp hx with hx | hx
    · exact ((pairwise_append.mp hsaid).2.2 x hx e mem_cons_self).le
    · rw [mem_singleton.mp hx]
  have he := (hin e (mem_append_right said mem_cons_self)).1
  refine ⟨told ++ (said ++ [e]), hr.type.trans h.leech, hcore, h.sorted, hqueue, ?_, ?_, fun x ↦ ?_, ?_,
    .inr ⟨e, (h.queue e he.1).1, htimer⟩, hold, fun x hx hle ↦ ?_, hlost⟩
  · rw [hr.written, h.written, ← map_append]
  · refine pairwise_append.mpr ⟨h.order, hsaid, fun x hx y hy ↦ ?_⟩
    exact lt_of_lt_of_le ((h.mem x).mp hx).2.2.1 (hin y hy).1.2
  · have hstart := h.start
    rw [mem_append, h.mem, htimer]
    constructor
    · rintro (⟨hx, hle, hlt, hnot⟩ | hx)
      · exact ⟨hx, hle, by omega, hnot⟩
      · obtain ⟨⟨hq, hle⟩, hlast⟩ := hin x hx
        exact ⟨(h.queue x hq).1, by omega, by omega, (h.queue x hq).2⟩
    rintro ⟨hx, hle, hlt, hnot⟩
    refine (Nat.lt_or_ge x.1 s.haveTimer).imp (fun hpast ↦ ⟨hx, hle, hpast, hnot⟩) fun hwait ↦ ?_
    have hmem : x ∈ said ++ [e] ++ rest :=
      hpending ▸ mem_pendingHaves.mpr ⟨(h.waiting x hx hwait).resolve_left hnot, hwait⟩
    refine (mem_append.mp hmem).resolve_right fun hx ↦ ?_
    have := hrest e (mem_append_right said mem_cons_self) x hx
    omega
  · have hstart := h.start
    omega
  · rw [hr.haveQueue]
    exact h.waiting x hx (by omega)

theorem Told.completed (h : Told c s entries lost told) (index : ℕ) :
    Told c (s.pushHave index) (entries ++ (s.pushHave index).haveQueue.head?.toList) lost told := by
  obtain ⟨time, hpush, hlater⟩ : ∃ time, s.pushHave index = { s with haveQueue := (time, index) :: s.haveQueue } ∧
      ∀ e ∈ entries, e.1 < time := by
    have hsorted : s.haveQueue.Pairwise fun h h' ↦ h'.1 < h.1 := h.core.sorted
    rw [pushHave]
    split
    · rename_i hqueue
      rw [hqueue]
      refine ⟨s.now, rfl, fun e he ↦ ?_⟩
      have hold := (h.old e he).resolve_left (by rw [hqueue]; exact not_mem_nil)
      omega
    rename_i newest haves hqueue
    rw [hqueue]
    refine ⟨_, rfl, fun e he ↦ ?_⟩
    rw [hqueue] at hsorted
    rcases h.old e he with hmem | hold
    · have hle : e.1 ≤ newest.1 := by
        rw [hqueue] at hmem
        rcases mem_cons.mp hmem with rfl | hmem
        · exact le_rfl
        · exact (rel_of_pairwise_cons hsorted hmem).le
      split_ifs <;> omega
    · split_ifs <;> omega
  have hcore := sound_pushHave index h.core
  rw [hpush] at hcore ⊢
  have hnew : (time, index) ∉ entries := fun hin ↦ lt_irrefl _ (hlater _ hin)
  have hmem : ∀ {e : ℕ × ℕ}, e ∈ entries ++ [(time, index)] ↔ e ∈ entries ∨ e = (time, index) := by
    simp only [mem_append, mem_singleton, implies_true]
  have hbehind : c.haveTimer ≤ time → s.haveTimer ≤ time := by
    obtain htimer | ⟨e, he, htimer⟩ := h.timer
    · exact htimer ▸ id
    · exact fun _ ↦ htimer ▸ hlater e he
  refine ⟨h.leech, hcore, ?_, fun e he ↦ ?_, h.written, h.order, fun e ↦ ?_, h.start, ?_, fun e he ↦ ?_, fun e he hle ↦ ?_,
    fun e he ↦ ⟨hmem.mpr (.inl (h.lost e he).1), (h.lost e he).2⟩⟩
  · refine pairwise_append.mpr ⟨h.sorted, pairwise_singleton _ _, fun x hx y hy ↦ ?_⟩
    rw [mem_singleton.mp hy]
    exact hlater x hx
  · rcases mem_cons.mp he with rfl | he
    · exact ⟨hmem.mpr (.inr rfl), fun hin ↦ hnew (h.lost _ hin).1⟩
    · exact ⟨hmem.mpr (.inl (h.queue e he).1), (h.queue e he).2⟩
  · refine (h.mem e).trans ⟨fun hin ↦ ⟨hmem.mpr (.inl hin.1), hin.2⟩, fun hin ↦ ⟨?_, hin.2⟩⟩
    refine (hmem.mp hin.1).resolve_right ?_
    rintro rfl
    exact absurd hin.2.2.1 (Nat.not_lt.mpr (hbehind hin.2.1))
  · exact h.timer.imp id fun h' ↦ h'.imp fun _ ↦ And.imp_left (hmem.mpr <| .inl ·)
  · rcases hmem.mp he with he | rfl
    · exact (h.old e he).imp (mem_cons_of_mem _) id
    · exact .inl mem_cons_self
  rcases hmem.mp he with he | rfl
  · exact (h.waiting e he hle).imp id (mem_cons_of_mem _)
  · exact .inr mem_cons_self

theorem reverse_pruneHaves (s : PeerConnection) :
    s.haveQueue.reverse = s.oldHaves ++ s.pruneHaves.haveQueue.reverse := by
  rw [oldHaves, pruneHaves, List.rdropWhile, reverse_reverse, takeWhile_append_dropWhile]

theorem old_of_mem_oldHaves {e : ℕ × ℕ} (he : e ∈ s.oldHaves) : e.1 + 600000000 ≤ s.now := by
  simpa using mem_takeWhile_imp he

theorem Told.pruned (h : Told c s entries lost told) :
    Told c s.pruneHaves entries (lost ++ s.oldHaves.filter fun e ↦ s.haveTimer ≤ e.1) told := by
  have hsplit := reverse_pruneHaves s
  have hmem : ∀ e, e ∈ s.haveQueue ↔ e ∈ s.oldHaves ∨ e ∈ s.pruneHaves.haveQueue := by
    intro e
    rw [← mem_reverse, hsplit, mem_append, mem_reverse]
  have hapart : ∀ e ∈ s.pruneHaves.haveQueue, e ∉ s.oldHaves := by
    have hsorted := pairwise_reverse.mpr h.core.sorted
    rw [show s.core.haveQueue.reverse = _ from hsplit] at hsorted
    exact fun e he hin ↦ lt_irrefl _ ((pairwise_append.mp hsorted).2.2 e hin e (mem_reverse.mpr he))
  have hfilter : ∀ e, e ∈ lost ++ (s.oldHaves.filter fun e ↦ s.haveTimer ≤ e.1) ↔
      e ∈ lost ∨ e ∈ s.oldHaves ∧ s.haveTimer ≤ e.1 := by
    intro e
    rw [mem_append, mem_filter, decide_eq_true_iff]
  refine ⟨h.leech, { h.core with sorted := h.core.sorted.sublist (List.rdropWhile_prefix _ _).sublist }, h.sorted,
    fun e he ↦ ?_, h.written, h.order, fun e ↦ ?_, h.start, h.timer, fun e he ↦ ?_, fun e he hle ↦ ?_, fun e he ↦ ?_⟩
  · have hq := h.queue e ((hmem e).mpr (.inr he))
    exact ⟨hq.1, fun hin ↦ ((hfilter e).mp hin).elim hq.2 fun hin ↦ hapart e he hin.1⟩
  · rw [h.mem, hfilter]
    refine and_congr_right fun _ ↦ and_congr_right fun _ ↦ and_congr_right fun hlt ↦ not_congr ?_
    exact ⟨.inl, fun hin ↦ hin.resolve_right fun hin ↦ absurd hlt (Nat.not_lt.mpr hin.2)⟩
  · rcases h.old e he with hin | hold
    · exact ((hmem e).mp hin).symm.imp id (old_of_mem_oldHaves (s := s))
    · exact .inr hold
  · rw [hfilter]
    rcases h.waiting e he hle with hin | hin
    · exact .inl (.inl hin)
    · exact ((hmem e).mp hin).imp (fun hin ↦ .inr ⟨hin, hle⟩) id
  rcases (hfilter e).mp he with he | he
  · exact h.lost e he
  · exact ⟨(h.queue e ((hmem e).mpr (.inl he.1))).1, old_of_mem_oldHaves (s := s) he.1⟩

theorem told_start (hleech : c.type = .leech) : Told c (start c) c.haveQueue.reverse [] [] := by
  refine ⟨hleech, sound_start c, pairwise_reverse.mpr c.sorted, fun e he ↦ ⟨mem_reverse.mpr he, nofun⟩, rfl, .nil,
    fun e ↦ ?_, le_rfl, .inl rfl, fun e he ↦ .inl (mem_reverse.mp he), fun e he _ ↦ .inr (mem_reverse.mp he), nofun⟩
  exact iff_of_false not_mem_nil fun hin ↦ absurd hin.2.1 (Nat.not_le_of_lt hin.2.2.1)

theorem told_of_telling (hleech : c.type = .leech) (h : Telling c s entries lost) :
    ∃ told, Told c s entries lost told := by
  induction h with
  | start => exact ⟨[], told_start hleech⟩
  | completed index _ ih =>
    obtain ⟨told, htold⟩ := ih
    exact ⟨told, htold.completed index⟩
  | pruned _ ih =>
    obtain ⟨told, htold⟩ := ih
    exact ⟨told, htold.pruned⟩
  | step e he _ hstep ih =>
    obtain ⟨told, htold⟩ := ih
    obtain ⟨said, rest, hrelays⟩ := (yields_step_relays e he htold.leech htold.core).of_ok hstep
    exact htold.relays hrelays ((yields_step e htold.core).of_ok hstep).sound

/-- The haves that a leeching connection has written are those of the entries from its starting time on that its timer has
passed, in the order of their times and one for each; what it has not come to is in the queue, unless it was dropped when
it was ten minutes old. A turn that fills the buffer goes on with the oldest of these, to the last one or to the end of the
buffer. The clock is assumed not to run backwards. -/
theorem telling_haves (hleech : c.type = .leech) (h : Telling c s entries lost) :
    (entries.Pairwise fun e e' ↦ e.1 < e'.1) ∧
      (∃ told : List (ℕ × ℕ), indices s.written = told.map Prod.snd ∧ (told.Pairwise fun e e' ↦ e.1 < e'.1) ∧
        ∀ e, e ∈ told ↔ e ∈ entries ∧ c.haveTimer ≤ e.1 ∧ e.1 < s.haveTimer ∧ e ∉ lost) ∧
      (∀ e ∈ entries, s.haveTimer ≤ e.1 → e ∈ lost ∨ e ∈ s.pendingHaves) ∧
      (∀ e ∈ lost, e ∈ entries ∧ e.1 + 600000000 ≤ s.now) ∧
      ∀ i, Yields (s.fillWriteBuffer i) fun t ↦ ∃ said rest, s.pendingHaves = said ++ rest ∧
        indices t.written = indices s.written ++ said.map Prod.snd ∧ (rest = [] ∨ bufferSize < t.bufferEnd + 9) := by
  obtain ⟨told, htold⟩ := told_of_telling hleech h
  refine ⟨htold.sorted, ⟨told, htold.written, htold.order, htold.mem⟩, fun e he hle ↦ ?_, htold.lost, fun i ↦ ?_⟩
  · exact (htold.waiting e he hle).imp id fun hin ↦ mem_pendingHaves.mpr ⟨hin, hle⟩
  · refine (yields_fillWriteBuffer_tells i htold.leech htold.core).mono fun t ⟨said, rest, htells, hroom⟩ ↦ ?_
    exact ⟨said, rest, htells.pending, htells.written, hroom⟩

theorem telling_haves_same_tick :
    ∃ s, Telling leecher s [(20000000, 3), (20000001, 5)] [] ∧ indices s.written = [3, 5] ∧
      ∃ told : List (ℕ × ℕ), indices s.written = told.map Prod.snd ∧ (told.Pairwise fun e e' ↦ e.1 < e'.1) ∧
        ∀ e, e ∈ told ↔ e ∈ [(20000000, 3), (20000001, 5)] ∧ 0 ≤ e.1 ∧ e.1 < s.haveTimer ∧ e ∉ [] := by
  have hpushed := (Telling.start (c := leecher)).completed 3 |>.completed 5
  obtain ⟨s, hstep⟩ : ∃ s, step (.turn nothingFound) (((start leecher).pushHave 3).pushHave 5) = .ok s := ⟨_, rfl⟩
  have htelling := hpushed.step (.turn nothingFound) rfl hstep
  refine ⟨s, htelling, ?_, (telling_haves rfl htelling).2.1⟩
  cases hstep
  rfl

end PeerConnection

end LibTorrent
