import LibTorrent.Lib.Decimal
import LibTorrent.Lib.Outcome

namespace LibTorrent

open Lib.Decimal Lib.Outcome List

/-- The disk thread: it waits for callbacks, is about to take the next chunk in `perform`, or hashes one. -/
inductive DiskThread
  | idle
  | looking
  | hashing (chunk : ℕ)
  deriving DecidableEq

def DiskThread.chunks : DiskThread → List ℕ
  | .hashing chunk => [chunk]
  | _ => []

inductive HashFault
  | lostNode
  | notEmpty

/-- What is noted of a run: pushes, hashes computed by the disk thread, calls of done callbacks with the hash or null, and
begins and returns of `remove`. -/
inductive Note
  | pushed (chunk id : ℕ)
  | hashed (chunk : ℕ) (hash : Bytes)
  | called (chunk : ℕ) (hash : Option Bytes)
  | removing (id : ℕ)
  | returned (id : ℕ)

namespace Note

def pushed? : Note → Option ℕ
  | .pushed chunk _ => some chunk
  | _ => none

def call? : Note → Option (ℕ × Option Bytes)
  | .called chunk hash => some (chunk, hash)
  | _ => none

def chunk? : Note → Option ℕ
  | .pushed chunk _ | .hashed chunk _ | .called chunk _ => some chunk
  | _ => none

end Note

/-- The hash queue with the id of each chunk, the check queue, and the done chunks with their hashes and their flag.
`performs` and `works` are the callbacks that wait in the two threads; the main thread can be about to post one, in `work`,
and in `remove`, with the nodes that it has not come to. The log has the last note first. -/
structure HashQueues where
  nodes : List ℕ := []
  id : ℕ → ℕ := fun _ ↦ 0
  checking : List ℕ := []
  done : List ℕ := []
  hash : ℕ → Bytes := fun _ ↦ []
  hasDone : Bool := false
  disk : DiskThread := .idle
  performs : ℕ := 0
  works : ℕ := 0
  posting : Bool := false
  working : Bool := false
  removing : Option ℕ := none
  todo : List ℕ := []
  log : List Note := []

namespace HashQueues

/-- The steps of the two threads between which they can be interleaved. -/
inductive Event
  | push (chunk id : ℕ)
  | post
  | work
  | workNext (chunk : ℕ)
  | remove (id : ℕ)
  | removeNext
  | clear
  | perform
  | performNext
  | chunkDone (hash : Bytes)

/-- `HashQueue::push_back` and `HashCheckQueue::push_back` up to the end of the lock. -/
def pushBack (chunk id : ℕ) (s : HashQueues) : HashQueues :=
  { s with
    nodes := s.nodes ++ [chunk]
    id := Function.update s.id chunk id
    posting := s.checking.isEmpty
    checking := s.checking ++ [chunk]
    log := .pushed chunk id :: s.log }

def workNext (chunk : ℕ) (s : HashQueues) : Except HashFault HashQueues :=
  if s.done = [] then .ok { s with hasDone := false, working := false }
  else if chunk ∈ s.done then
    if chunk ∈ s.nodes then
      .ok { s with
        done := s.done.erase chunk
        nodes := s.nodes.erase chunk
        log := .called chunk (some (s.hash chunk)) :: s.log }
    else .error .lostNode
  else .ok s

/-- The next node in `remove`. The thread waits while the chunk is neither in the check queue nor done. -/
def removeNext (id : ℕ) (s : HashQueues) : HashQueues :=
  match s.todo with
  | [] => { s with removing := none, log := .returned id :: s.log }
  | chunk :: todo =>
    if s.id chunk ≠ id then { s with nodes := s.nodes ++ [chunk], todo := todo }
    else if chunk ∈ s.checking then
      { s with checking := s.checking.erase chunk, todo := todo, log := .called chunk none :: s.log }
    else if chunk ∈ s.done then { s with done := s.done.erase chunk, todo := todo, log := .called chunk none :: s.log }
    else s

def chunkDone (chunk : ℕ) (hash : Bytes) (s : HashQueues) : HashQueues :=
  { s with
    disk := .looking
    done := s.done.insert chunk
    hash := Function.update s.hash chunk hash
    works := if s.hasDone then s.works else s.works + 1
    hasDone := true
    log := .hashed chunk hash :: s.log }

def step : Event → HashQueues → Except HashFault HashQueues
  | .push chunk id, s =>
    .ok (if s.removing = none ∧ s.posting = false ∧ chunk ∉ s.nodes then s.pushBack chunk id else s)
  | .post, s => .ok (if s.posting then { s with posting := false, performs := s.performs + 1 } else s)
  | .work, s =>
    .ok (if 0 < s.works ∧ s.working = false ∧ s.removing = none ∧ s.posting = false then
      { s with works := s.works - 1, working := true } else s)
  | .workNext chunk, s => if s.working ∧ s.removing = none ∧ s.posting = false then s.workNext chunk else .ok s
  | .remove id, s =>
    .ok (if s.removing = none ∧ s.posting = false then
      { s with removing := some id, nodes := [], todo := s.nodes, log := .removing id :: s.log } else s)
  | .removeNext, s =>
    match s.removing with
    | some id => .ok (s.removeNext id)
    | none => .ok s
  | .clear, s => if s.removing = none ∧ s.nodes ≠ [] then .error .notEmpty else .ok s
  | .perform, s =>
    .ok (if 0 < s.performs ∧ s.disk = .idle then { s with performs := s.performs - 1, disk := .looking } else s)
  | .performNext, s =>
    .ok (if s.disk = .looking then
      match s.checking with
      | [] => { s with disk := .idle }
      | chunk :: checking => { s with checking := checking, disk := .hashing chunk }
    else s)
  | .chunkDone hash, s =>
    match s.disk with
    | .hashing chunk => .ok (s.chunkDone chunk hash)
    | _ => .ok s

def pushed (s : HashQueues) : List ℕ := s.log.filterMap Note.pushed?

def calls (s : HashQueues) : List (ℕ × Option Bytes) := s.log.filterMap Note.call?

/-- What the owner of a chunk waits for: nothing, its hash, or the call with its hash. -/
inductive Stage
  | absent
  | waiting (id : ℕ)
  | hashed (id : ℕ) (hash : Bytes)

def Stage.id? : Stage → Option ℕ
  | .absent => none
  | .waiting id | .hashed id _ => some id

def stage (s : HashQueues) (c : ℕ) : Stage :=
  if c ∈ s.nodes ++ s.todo then if c ∈ s.done then .hashed (s.id c) (s.hash c) else .waiting (s.id c) else .absent

/-- The logs that are right for a chunk. Each push is called back once: by `work` with the hash that was computed since,
or with null by the `remove` for its id, which does not return before. -/
inductive Follows (c : ℕ) : List Note → Option ℕ → Stage → Prop
  | start : Follows c [] none .absent
  | other {l r st n k} : Follows c l r st → n.chunk? = some k → k ≠ c → Follows c (n :: l) r st
  | pushed {l r id} : Follows c l r .absent → Follows c (.pushed c id :: l) r (.waiting id)
  | hashed {l r id hash} : Follows c l r (.waiting id) → Follows c (.hashed c hash :: l) r (.hashed id hash)
  | called {l id hash} : Follows c l none (.hashed id hash) → Follows c (.called c (some hash) :: l) none .absent
  | removed {l id st} : Follows c l (some id) st → st.id? = some id → Follows c (.called c none :: l) (some id) .absent
  | removing {l id st} : Follows c l none st → Follows c (.removing id :: l) (some id) st
  | returned {l id st} : Follows c l (some id) st → st.id? ≠ some id → Follows c (.returned id :: l) none st

theorem Follows.count_eq {c : ℕ} {l : List Note} {r : Option ℕ} {st : Stage} (h : Follows c l r st) :
    (l.filterMap Note.pushed?).count c = ((l.filterMap Note.call?).map Prod.fst).count c + st.id?.toList.length := by
  induction h with
  | start => rfl
  | @other _ _ _ n _ _ hn hc ih =>
    cases n with
    | removing | returned => cases hn
    | _ => simpa [filterMap_cons, Note.pushed?, Note.call?, Option.some.inj hn, hc] using ih
  | removed _ hid ih =>
    rw [hid] at ih
    simpa [filterMap_cons, Note.pushed?, Note.call?, Stage.id?] using ih
  | _ => simpa [filterMap_cons, Note.pushed?, Note.call?, Stage.id?] using ‹_›

/-- Each chunk of a node is at one place, and what waits anywhere is waited for. -/
structure Sound (s : HashQueues) : Prop where
  placed : ∀ c, (s.nodes ++ s.todo).count c = s.checking.count c + s.disk.chunks.count c + s.done.count c
  once : ∀ c, (s.nodes ++ s.todo).count c ≤ 1
  followed : ∀ c, Follows c s.log s.removing (s.stage c)
  flag : s.done ≠ [] → s.hasDone = true
  works : s.hasDone = true → 0 < s.works ∨ s.working = true
  performs : s.checking ≠ [] → 0 < s.performs ∨ s.disk ≠ .idle ∨ s.posting = true
  todo : s.removing = none → s.todo = []
  posting : s.posting = true → s.removing = none
  kept : ∀ id, s.removing = some id → ∀ c ∈ s.nodes, s.id c ≠ id

variable {s : HashQueues}

theorem stage_id? (c : ℕ) : (s.stage c).id? = if c ∈ s.nodes ++ s.todo then some (s.id c) else none := by
  unfold stage
  split_ifs
  · rfl
  · rfl
  · rfl

theorem Sound.nodup (h : s.Sound) : (s.nodes ++ s.todo).Nodup := nodup_iff_count_le_one.mpr h.once

/-- The call for a chunk whose node is taken out. -/
theorem Sound.called {t : HashQueues} {chunk : ℕ} {hash : Option Bytes} (h : s.Sound)
    (hcall : Follows chunk (.called chunk hash :: s.log) s.removing .absent) (hgone : chunk ∉ t.nodes ++ t.todo)
    (hstay : ∀ c, c ≠ chunk → t.stage c = s.stage c) (c : ℕ) :
    Follows c (.called chunk hash :: s.log) s.removing (t.stage c) := by
  by_cases hc : c = chunk
  · rwa [hc, stage, if_neg hgone]
  · rw [hstay c hc]
    exact .other (h.followed c) rfl (Ne.symm hc)

theorem sound_pushBack {chunk : ℕ} (id : ℕ) (h : s.Sound) (hr : s.removing = none) (hp : s.posting = false)
    (hnew : chunk ∉ s.nodes) : (s.pushBack chunk id).Sound := by
  have htodo := h.todo hr
  have hzero : (s.nodes ++ s.todo).count chunk = 0 := by rw [htodo, append_nil, count_eq_zero.mpr hnew]
  refine { h with placed c := ?_, once c := ?_, followed c := ?_, performs _ := ?_, posting _ := hr, kept id hid := ?_ }
  · have := h.placed c
    simp only [pushBack, count_append] at this ⊢
    omega
  · have := h.once c
    simp only [pushBack, htodo, append_nil, count_append, count_singleton] at hzero this ⊢
    split_ifs with hc
    · rw [beq_iff_eq] at hc
      subst hc
      omega
    · exact this
  · obtain rfl | hc := eq_or_ne c chunk
    · have hdone : c ∉ s.done := count_eq_zero.mp (Nat.eq_zero_of_add_eq_zero_left ((h.placed c).symm.trans hzero))
      have hlog := h.followed c
      rw [stage, if_neg (count_eq_zero.mp hzero)] at hlog
      have hstage : (s.pushBack c id).stage c = .waiting id := by simp [stage, pushBack, hdone]
      rw [hstage]
      exact hlog.pushed
    · have hstage : (s.pushBack chunk id).stage c = s.stage c := by simp [stage, pushBack, hc]
      rw [hstage]
      exact .other (h.followed c) rfl (Ne.symm hc)
  · cases hc : s.checking with
    | nil => exact .inr (.inr (by simp [pushBack, hc]))
    | cons x l =>
      obtain hwaits | hruns | hposts := h.performs (by simp [hc])
      · exact .inl hwaits
      · exact .inr (.inl hruns)
      · cases hp.symm.trans hposts
  · cases hr.symm.trans hid

theorem sound_workNext (chunk : ℕ) (h : s.Sound) (hr : s.removing = none) :
    Ensures (· = .lostNode) (s.workNext chunk) Sound := by
  have htodo := h.todo hr
  refine .ite (fun hnil ↦ ?_) fun _ ↦ .ite (fun hdone ↦ .ite (fun hnode ↦ ?_) fun hno ↦ ?_) fun _ ↦ h
  · exact { h with flag := fun hne ↦ absurd hnil hne, works := nofun }
  · have hlog := h.followed chunk
    rw [stage, if_pos (mem_append_left _ hnode), if_pos hdone, hr] at hlog
    have hnodup := h.nodup
    rw [htodo, append_nil] at hnodup
    refine { h with
      placed c := ?_, once c := ?_, flag _ := h.flag (ne_nil_of_mem hdone), kept id hid := absurd (hr.symm.trans hid) nofun
      followed := h.called (hr ▸ hlog.called) (by simpa [htodo] using hnodup.not_mem_erase) fun c hc ↦ ?_ }
    · have := h.placed c
      have := (perm_cons_erase hnode).count_eq c
      have := (perm_cons_erase hdone).count_eq c
      simp only [htodo, append_nil, count_cons] at *
      omega
    · exact (((erase_sublist).append_right _).count_le c).trans (h.once c)
    · simp [stage, mem_erase_of_ne hc]
  · have hplaced := h.placed chunk
    have hpos := count_pos_iff.mpr hdone
    rw [htodo, append_nil, count_eq_zero.mpr hno] at hplaced
    omega

theorem sound_removeNext {id : ℕ} (h : s.Sound) (hr : s.removing = some id) : (s.removeNext id).Sound := by
  have hposting : s.posting ≠ true := fun hp ↦ absurd ((h.posting hp).symm.trans hr) nofun
  have hlog := h.followed
  rw [hr] at hlog
  rw [removeNext]
  split
  · rename_i htodo
    refine { h with todo _ := htodo, posting hp := absurd hp hposting, kept := nofun, followed c := (hlog c).returned ?_ }
    rw [stage_id?, htodo, append_nil]
    split_ifs with hc
    · exact fun heq ↦ h.kept id hr c hc (Option.some.inj heq)
    · nofun
  rename_i chunk todo htodo
  have hplaced := h.placed
  have hnodup := nodup_middle.mp (htodo ▸ h.nodup)
  have hremoving : ∀ {P : Prop}, s.removing = none → P := fun hn ↦ absurd (hr.symm.trans hn) nofun
  have honce : ∀ c, (s.nodes ++ todo).count c ≤ 1 := nodup_iff_count_le_one.mp hnodup.of_cons
  have hcalled (hid : s.id chunk = id) : Follows chunk (.called chunk none :: s.log) s.removing .absent := by
    rw [hr]
    refine (hlog chunk).removed ?_
    rw [stage_id?, if_pos (by simp [htodo]), hid]
  simp only [htodo, count_append, count_cons] at hplaced
  split_ifs with hid hchecking hdone
  · have hnodes : s.nodes ++ [chunk] ++ todo = s.nodes ++ s.todo := by rw [append_assoc, singleton_append, htodo]
    refine { h with
      placed := hnodes ▸ h.placed, once := hnodes ▸ h.once, todo := hremoving, kept id' hid' c hc := ?_
      followed c := ?_ }
    · have := h.followed c
      rwa [stage, ← hnodes] at this
    · rcases mem_append.mp hc with hc | hc
      · exact h.kept id' hid' c hc
      · rw [mem_singleton.mp hc]
        exact Option.mem_unique hr hid' ▸ hid
  · refine { h with
      placed c := ?_, once := honce, performs _ := h.performs (ne_nil_of_mem hchecking), todo := hremoving
      followed := h.called (hcalled (not_not.mp hid)) hnodup.notMem fun c hc ↦ ?_ }
    · have := hplaced c
      have := (perm_cons_erase hchecking).count_eq c
      simp only [count_append, count_cons] at *
      omega
    · simp [stage, htodo, hc]
  · refine { h with
      placed c := ?_, once := honce, flag _ := h.flag (ne_nil_of_mem hdone), todo := hremoving
      followed := h.called (hcalled (not_not.mp hid)) hnodup.notMem fun c hc ↦ ?_ }
    · have := hplaced c
      have := (perm_cons_erase hdone).count_eq c
      simp only [count_append, count_cons] at *
      omega
    · simp [stage, htodo, hc, mem_erase_of_ne hc]
  · exact h

theorem sound_chunkDone {chunk : ℕ} (hash : Bytes) (h : s.Sound) (hdisk : s.disk = .hashing chunk) :
    (s.chunkDone chunk hash).Sound := by
  have hplaced := h.placed chunk
  rw [hdisk, DiskThread.chunks, count_singleton_self] at hplaced
  have hnode : chunk ∈ s.nodes ++ s.todo := count_pos_iff.mp (by omega)
  have hnew : chunk ∉ s.done := by
    have := h.once chunk
    exact count_eq_zero.mp (by omega)
  refine { h with placed c := ?_, followed c := ?_, flag _ := rfl, works _ := ?_, performs _ := .inr (.inl nofun) }
  · have hplaced := h.placed c
    rw [hdisk] at hplaced
    simp only [chunkDone, DiskThread.chunks, insert_of_not_mem hnew, count_cons, count_nil] at hplaced ⊢
    omega
  · have hlog := h.followed c
    obtain rfl | hc := eq_or_ne c chunk
    · rw [stage, if_pos hnode, if_neg hnew] at hlog
      have hstage : (s.chunkDone c hash).stage c = .hashed (s.id c) hash := by
        simp only [stage, chunkDone, if_pos hnode, mem_insert_self, if_true, Function.update_self]
      rw [hstage]
      exact hlog.hashed
    · have hstage : (s.chunkDone chunk hash).stage c = s.stage c := by simp [stage, chunkDone, hc]
      rw [hstage]
      exact .other hlog rfl (Ne.symm hc)
  · cases hflag : s.hasDone with
    | true => simpa [chunkDone, hflag] using h.works hflag
    | false => simp [chunkDone, hflag]

theorem sound_performNext (h : s.Sound) (hdisk : s.disk = .looking) : Sound (match s.checking with
      | [] => { s with disk := .idle }
      | chunk :: checking => { s with checking := checking, disk := .hashing chunk }) := by
  have hplaced := h.placed
  rw [hdisk] at hplaced
  split
  · rename_i hnil
    exact { h with placed := hplaced, performs := fun hne ↦ absurd hnil hne }
  rename_i chunk checking hchecking
  refine { h with placed c := ?_, performs _ := .inr (.inl nofun) }
  have := hplaced c
  simp only [hchecking, DiskThread.chunks, count_cons, count_nil] at this ⊢
  omega

theorem sound_step (e : Event) (h : s.Sound) : Ensures (· = .lostNode) (step e s) Sound := by
  cases e with
  | push chunk id =>
    refine .ok ?_
    split_ifs with hc
    · exact sound_pushBack id h hc.1 hc.2.1 hc.2.2
    · exact h
  | post =>
    refine .ok ?_
    split_ifs
    · exact { h with performs := fun _ ↦ .inl (Nat.succ_pos _), posting := nofun }
    · exact h
  | work =>
    refine .ok ?_
    split_ifs
    · exact { h with works := fun _ ↦ .inr rfl }
    · exact h
  | workNext chunk => exact .ite (fun hc ↦ sound_workNext chunk h hc.2.1) fun _ ↦ h
  | remove id =>
    refine .ok ?_
    split_ifs with hc
    · have hnodes : s.nodes ++ s.todo = [] ++ s.nodes := by rw [h.todo hc.1, append_nil, nil_append]
      refine { h with
        placed := hnodes ▸ h.placed, once := hnodes ▸ h.once, todo := nofun, kept := nofun
        posting hp := absurd (hc.2.symm.trans hp) nofun, followed c := ?_ }
      have hlog := h.followed c
      rw [stage, hnodes, hc.1] at hlog
      exact hlog.removing
    · exact h
  | removeNext =>
    rw [step]
    split
    · rename_i id hr
      exact sound_removeNext h hr
    · exact h
  | clear => exact .either nofun h
  | perform =>
    refine .ok ?_
    split_ifs with hc
    · have hplaced := h.placed
      rw [hc.2] at hplaced
      exact { h with placed := hplaced, performs := fun _ ↦ .inr (.inl nofun) }
    · exact h
  | performNext =>
    refine .ok ?_
    split_ifs with hdisk
    · exact sound_performNext h hdisk
    · exact h
  | chunkDone hash =>
    rw [step]
    split
    · rename_i chunk hdisk
      exact sound_chunkDone hash h hdisk
    · exact h

theorem sound_start : Sound {} :=
  ⟨fun _ ↦ rfl, fun _ ↦ Nat.zero_le _, fun _ ↦ .start, fun h ↦ absurd rfl h, nofun, fun h ↦ absurd rfl h, fun _ ↦ rfl,
    nofun, nofun⟩

structure Idle (s : HashQueues) : Prop where
  disk : s.performs = 0 ∧ s.disk = .idle
  main : s.works = 0 ∧ s.working = false ∧ s.posting = false ∧ s.removing = none

theorem Sound.place (h : s.Sound) {c : ℕ} (hc : c ∈ s.nodes ++ s.todo) :
    c ∈ s.checking ∨ c ∈ s.done ∨ s.disk = .hashing c := by
  have hplaced := h.placed c
  have hpos := count_pos_iff.mpr hc
  by_contra hnone
  simp only [not_or] at hnone
  have hdisk : s.disk.chunks.count c = 0 := by
    cases hd : s.disk with
    | hashing x =>
      have hne : x ≠ c := fun hx ↦ hnone.2.2 (hd.trans (congrArg _ hx))
      simp [DiskThread.chunks, hne]
    | _ => rfl
  rw [hdisk, count_eq_zero.mpr hnone.1, count_eq_zero.mpr hnone.2.1] at hplaced
  omega

theorem Sound.absent (h : s.Sound) (hidle : s.Idle) (c : ℕ) : Follows c s.log none .absent := by
  obtain ⟨⟨hperforms, hdisk⟩, hworks, hworking, hposting, hremoving⟩ := hidle
  have hno : c ∉ s.nodes ++ s.todo := by
    intro hc
    obtain hin | hin | hin := h.place hc
    · simpa [hperforms, hdisk, hposting] using h.performs (ne_nil_of_mem hin)
    · simpa [hworks, hworking] using h.works (h.flag (ne_nil_of_mem hin))
    · cases hdisk.symm.trans hin
  have hlog := h.followed c
  rwa [hremoving, stage, if_neg hno] at hlog

def Event.isCall : Event → Bool
  | .push .. | .remove _ | .clear => true
  | _ => false

/-- A bound on the steps that the threads have left. -/
def left (s : HashQueues) : ℕ :=
  5 * s.checking.length + (match s.disk with | .idle => 0 | .looking => 1 | .hashing _ => 5) + 2 * s.performs +
    3 * s.posting.toNat + s.todo.length + s.removing.toList.length + s.done.length + 2 * s.works + s.working.toNat

theorem exists_step (h : s.Sound) (hbusy : ¬ s.Idle) :
    ∃ e t, e.isCall = false ∧ step e s = .ok t ∧ t.left < s.left ∧ t.pushed = s.pushed := by
  obtain ⟨nodes, _, checking, done, _, _, disk, performs, works, posting, working, removing, todo, _⟩ := s
  cases disk with
  | hashing c =>
    refine ⟨.chunkDone [], _, rfl, rfl, ?_, rfl⟩
    simp only [left, chunkDone, length_insert]
    split <;> split <;> omega
  | looking =>
    refine ⟨.performNext, _, rfl, rfl, ?_⟩
    cases checking with
    | nil => exact ⟨by simp [left], rfl⟩
    | cons => exact ⟨by simp [left]; omega, rfl⟩
  | idle =>
    cases posting
    case true => exact ⟨.post, _, rfl, rfl, by simp [left]; omega, rfl⟩
    cases performs
    case succ n => exact ⟨.perform, _, rfl, rfl, by simp [left]; omega, rfl⟩
    obtain rfl : checking = [] := by
      by_contra hne
      simpa using h.performs hne
    have hplace (c : ℕ) : c ∈ nodes ++ todo ↔ c ∈ done := by
      rw [← count_pos_iff, h.placed c, ← count_pos_iff]
      simp [DiskThread.chunks]
    cases removing with
    | some id =>
      refine ⟨.removeNext, _, rfl, rfl, ?_⟩
      cases todo with
      | nil => exact ⟨by simp [removeNext, left], rfl⟩
      | cons c l =>
        have hc : c ∈ done := (hplace c).mp (by simp)
        dsimp only [removeNext]
        rw [if_neg not_mem_nil, if_pos hc]
        have := length_pos_of_mem hc
        split
        · exact ⟨by simp [left], rfl⟩
        · exact ⟨by simp [left, length_erase_of_mem hc]; omega, rfl⟩
    | none =>
      obtain rfl := h.todo rfl
      cases working with
      | true =>
        cases done with
        | nil => exact ⟨.workNext 0, _, rfl, rfl, by simp [left], rfl⟩
        | cons c l =>
          have hc : c ∈ nodes := by simpa using (hplace c).mpr mem_cons_self
          exact ⟨.workNext c, _, rfl, (if_pos mem_cons_self).trans (if_pos hc), by simp [left], rfl⟩
      | false =>
        cases works with
        | zero => exact absurd ⟨⟨rfl, rfl⟩, rfl, rfl, rfl, rfl⟩ hbusy
        | succ n => exact ⟨.work, _, rfl, rfl, by simp [left]; omega, rfl⟩

theorem Sound.exists_finish (h : s.Sound) : ∃ es t,
    (∀ e ∈ es, e.isCall = false) ∧ forEach step es s = .ok t ∧ t.Idle ∧ t.pushed = s.pushed ∧
      ∀ c, Follows c t.log none .absent := by
  induction hn : s.left using Nat.strongRecOn generalizing s with
  | ind n ih =>
    by_cases hidle : s.Idle
    · exact ⟨[], s, by simp, rfl, hidle, rfl, h.absent hidle⟩
    · obtain ⟨e, t, he, hstep, hlt, hpushed⟩ := exists_step h hidle
      obtain ⟨es, u, hes, hrun, hu, hpushed', hlog⟩ := ih _ (hn ▸ hlt) ((sound_step e h).of_ok hstep) rfl
      exact ⟨e :: es, u, by simpa [he], by rw [forEach, hstep]; exact hrun, hu, hpushed'.trans hpushed, hlog⟩

end HashQueues

end LibTorrent
