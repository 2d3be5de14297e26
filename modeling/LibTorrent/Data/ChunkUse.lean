import LibTorrent.Data.ChunkList
import Mathlib.Tactic.Ring

namespace LibTorrent

open Lib.Outcome Lib.Store List

theorem heldWritable_le_held (i : ℕ) (hs : List ChunkHandle) : heldWritable i hs ≤ held i hs := by
  refine countP_mono_left fun h _ hp ↦ ?_
  rw [Bool.and_eq_true] at hp
  exact hp.1

section Held

variable {i j : ℕ} {h : ChunkHandle} (hi : h.node = some i) (hs : List ChunkHandle)

include hi

theorem held_self : held i (h :: hs) = held i hs + 1 := by
  simp [held, hi]

theorem heldWritable_self : heldWritable i (h :: hs) = heldWritable i hs + if h.writable = true then 1 else 0 := by
  simp [heldWritable, countP_cons, hi]

theorem heldBlocking_self : heldBlocking i (h :: hs) = heldBlocking i hs + if h.blocking = true then 1 else 0 := by
  simp [heldBlocking, countP_cons, hi]

theorem counts_other (hj : j ≠ i) {queue : List ℕ} {n : ChunkListNode} :
    ChunkList.Counts (h :: hs) queue j n ↔ ChunkList.Counts hs queue j n := by
  simp [ChunkList.counts_iff, held, heldWritable, heldBlocking, hi, Ne.symm hj]

end Held

namespace ChunkList

variable {base : MemoryManager} {handles : List ChunkHandle} {s : ChunkList} {index : ℕ} {flags : GetFlags}

theorem ensures_allocate (h : Accounted base handles s) (env : GetEnv) : Gives (s.allocate env) fun r ↦
      ∃ t, Accounted base handles t ∧ t.queue ⊆ s.queue ∧ t.size = s.size ∧ t.chunkSize = s.chunkSize ∧
        r.2 = if r.1 then { t with memory := t.memory.accountMemoryBlock s.chunkSize } else t := by
  have hfreed : Gives (s.tryFreeMemory env) fun t ↦
      Accounted base handles t ∧ t.queue ⊆ s.queue ∧ t.size = s.size ∧ t.chunkSize = s.chunkSize := by
    refine .either ?_ ⟨h, List.Subset.refl _, rfl, rfl⟩
    have hsync := ensures_syncChunks h env.sync {}
    cases hr : syncChunks env.sync {} s with
    | ok r => exact hsync.of_ok hr
    | error e => rw [hr] at hsync; exact hsync
  refine hfreed.bind fun t ht ↦ ?_
  refine .either ⟨t, ht.1, ht.2.1, ht.2.2.1, ht.2.2.2, rfl⟩
    ⟨t, ht.1, ht.2.1, ht.2.2.1, ht.2.2.2, rfl⟩

theorem Accounted.acquire (h : Accounted base handles s) (hi : index < s.size) (chunk : Chunk) {m : MemoryManager}
    (hqueue : m.syncQueueMemoryUsage = s.memory.syncQueueMemoryUsage ∧
      m.syncQueueBlockCount = s.memory.syncQueueBlockCount)
    (husage : m.memoryUsage + s.chunkSize * weight (fun _ ↦ true) (s.nodes index).chunk =
      s.memory.memoryUsage + s.chunkSize * 1)
    (hblocks : m.memoryBlockCount + weight (fun _ ↦ true) (s.nodes index).chunk = s.memory.memoryBlockCount + 1) :
    Accounted base ((ChunkList.acquire index flags (some chunk) { s with memory := m }).1 :: handles)
      (ChunkList.acquire index flags (some chunk) { s with memory := m }).2 := by
  obtain ⟨hcounted, hqu, hqb⟩ := h
  generalize hr : ChunkList.acquire index flags (some chunk) { s with memory := m } = r
  obtain ⟨handle, t⟩ := r
  cases hr
  obtain ⟨href, hwr, hbl⟩ := hcounted.node index
  refine ⟨hcounted.write s.queue hi ⟨?_, ?_, ?_⟩ (iff_of_true rfl ?_)
    (fun j hj n ↦ (counts_other rfl handles hj).mpr) hcounted.nodup husage hblocks, hqueue.1.trans hqu, hqueue.2.trans hqb⟩
  · rw [held_self rfl]
    rw [href]
    push_cast
    ring
  · rw [heldWritable_self rfl]
    rw [hwr]
    cases flags.writable
    · rfl
    push_cast
    simp only [if_true]
    ring
  · rw [heldBlocking_self rfl]
    rw [hbl]
    cases flags.blocking <;> rfl
  · dsimp only
    split_ifs at href <;> omega

/-- Write access is asked for, without `get_nonblock`, to a chunk that is mapped read-only and blocked. -/
def Unsupported (index : ℕ) (flags : GetFlags) (s : ChunkList) : Prop :=
  index < s.size ∧ flags.writable = true ∧ flags.nonblock = false ∧ (s.nodes index).blocking ≠ 0 ∧
    ∃ chunk, (s.nodes index).chunk = some chunk ∧ chunk.isWritable = false

def withHandle (handle : ChunkHandle) (handles : List ChunkHandle) : List ChunkHandle :=
  if handle.node.isSome then handle :: handles else handles

theorem ensures_get_unloaded (h : Accounted base handles s) (hi : index < s.size) (hnone : (s.nodes index).chunk = none)
    (hmapped : flags.hashing = true ∨ flags.notHashing = true) (env : GetEnv) :
    Gives (s.get index flags env) fun r ↦ Accounted base (withHandle r.1 handles) r.2 := by
  have hzero : ¬ 0 < (s.nodes index).references := by
    rw [← h.counted.chunk, hnone]
    simp
  have hout : index ∉ s.queue := by
    intro hq
    have href := (h.counted.node index).references
    rw [if_pos hq] at href
    omega
  rw [get, if_neg (not_le.mpr hi), hnone]
  refine (ensures_allocate h env).bind fun r hr ↦ ?_
  obtain ⟨t, ht, hsub, hsize, hchunkSize, hr⟩ := hr
  have hempty : (t.nodes index).chunk = none := by
    have hnot : ¬ 0 < (t.nodes index).references := by
      have href := (h.counted.node index).references
      have href' := (ht.counted.node index).references
      rw [if_neg fun hq ↦ hout (hsub hq)] at href'
      omega
    rw [← ht.counted.chunk] at hnot
    simpa using hnot
  cases hok : r.1 with
  | false =>
    rw [hok] at hr
    rw [hr]
    exact ht
  | true =>
    rw [hok, if_pos rfl] at hr
    rw [hr, if_neg (by simp), if_neg (by simpa [or_iff_not_imp_left] using hmapped)]
    cases env.createChunk with
    | ok chunk =>
      refine ht.acquire (hsize ▸ hi) chunk ⟨rfl, rfl⟩ ?_ ?_
      · rw [hempty, ← hchunkSize]
        change t.memory.memoryUsage + t.chunkSize + t.chunkSize * 0 = _
        omega
      · rw [hempty]
        rfl
    | error err =>
      dsimp only
      rw [MemoryManager.releaseMemoryBlock_eq (Nat.le_add_left _ _) (Nat.succ_pos _), ok_bind, ensures_ok]
      simpa [withHandle, ChunkHandle.fromError, MemoryManager.accountMemoryBlock] using ht

theorem get_loaded (h : Accounted base handles s) (hi : index < s.size) {chunk : Chunk}
    (hchunk : (s.nodes index).chunk = some chunk) (hsupported : ¬ Unsupported index flags s) (env : GetEnv) :
    Gives (s.get index flags env) fun r ↦ Accounted base (withHandle r.1 handles) r.2 := by
  have hacquire : ∀ chunk', Accounted base ((s.acquire index flags (some chunk')).1 :: handles)
      (s.acquire index flags (some chunk')).2 := fun chunk' ↦
    h.acquire hi chunk' ⟨rfl, rfl⟩ (by rw [hchunk]; rfl) (by rw [hchunk]; rfl)
  rw [get, if_neg (not_le.mpr hi), hchunk]
  refine .ite (fun hwrite ↦ .ite (fun hblocked ↦ ?_) fun _ ↦ ?_) fun _ ↦ hacquire chunk
  · rw [Bool.and_eq_true, Bool.not_eq_true'] at hwrite
    have hnonblock : flags.nonblock = true := by
      by_contra hno
      exact hsupported ⟨hi, hwrite.1, Bool.eq_false_iff.mpr hno, hblocked, chunk, hchunk, hwrite.2⟩
    rw [if_pos hnonblock]
    exact h
  cases env.createChunk with
  | ok chunk' => exact hacquire chunk'
  | error err => exact h

theorem get_unsupported (h : Unsupported index flags s) (env : GetEnv) : s.get index flags env =
      .error (.internalError "No support yet for getting write permission for blocked chunk.") := by
  obtain ⟨hi, hwrite, hnonblock, hblocked, chunk, hchunk, hprot⟩ := h
  rw [get, if_neg (not_le.mpr hi), hchunk]
  simp [hwrite, hprot, hblocked, hnonblock]

theorem ensures_release {handle : ChunkHandle} (h : Accounted base (handle :: handles) s)
    (hnode : handle.node = some i) : Gives (s.release handle) (Accounted base handles) := by
  obtain ⟨hcounted, hqu, hqb⟩ := h
  obtain ⟨href, hwr, hbl⟩ := hcounted.node i
  rw [held_self hnode] at href
  rw [heldWritable_self hnode] at hwr
  rw [heldBlocking_self hnode] at hbl
  have hpos : 0 < (s.nodes i).references := by split_ifs at href <;> omega
  have hi := hcounted.lt_size hpos
  have hother (j : ℕ) (hj : j ≠ i) (n : ChunkListNode) : Counts (handle :: handles) s.queue j n →
      Counts handles s.queue j n := (counts_other hnode handles hj).mp
  have hblocking : (if handle.blocking = true then (s.nodes i).blocking - 1 else (s.nodes i).blocking) =
      heldBlocking i handles := by
    split_ifs at hbl ⊢ <;> omega
  have hgood : ¬ ((s.nodes i).references ≤ 0 ∨ (handle.writable = true ∧ (s.nodes i).writable ≤ 0) ∨
      (handle.blocking = true ∧ (s.nodes i).blocking ≤ 0)) := by
    rintro (hbad | ⟨hw, hbad⟩ | ⟨hb, hbad⟩)
    · omega
    · split_ifs at hwr <;> omega
    · rw [if_pos hb] at hbl
      omega
  rw [release, hnode]
  dsimp only
  rw [if_neg (not_le.mpr hi), if_neg hgood]
  refine .ite (fun hw ↦ ?_) fun hw ↦ ?_
  · rw [if_pos hw] at hwr
    refine .ite (fun hlast ↦ ?_) fun hlast ↦ ?_
    · have hfresh : i ∉ s.queue := fun hq ↦ by
        rw [if_pos hq] at hwr
        omega
      rw [if_neg hfresh, ensures_ok]
      have hmem : i ∈ s.queue ++ [i] := mem_append_right _ mem_cons_self
      refine ⟨hcounted.write _ hi ⟨?_, ?_, hblocking⟩ (hcounted.chunk i) (fun j hj n hn ↦ ?_)
        (concat_eq_append ▸ hcounted.nodup.concat hfresh) rfl rfl, ?_, ?_⟩
      · rw [if_pos hmem]
        dsimp only
        omega
      · rw [if_pos hmem]
        dsimp only
        omega
      · simpa [counts_iff, hj] using hother j hj n hn
      · change s.memory.syncQueueMemoryUsage + s.chunkSize = base.syncQueueMemoryUsage + s.chunkSize * (s.queue ++ [i]).length
        rw [length_append, Nat.mul_add, length_singleton]
        omega
      change s.memory.syncQueueBlockCount + 1 = base.syncQueueBlockCount + (s.queue ++ [i]).length
      rw [length_append, length_singleton]
      omega
    · have hle := heldWritable_le_held i handles
      have hlower := hcounted.lower (n := { s.nodes i with
          blocking := if handle.blocking = true then (s.nodes i).blocking - 1 else (s.nodes i).blocking
          references := (s.nodes i).references - 1
          writable := (s.nodes i).writable - 1 }) hpos rfl
        ⟨by dsimp only; omega, by dsimp only; omega, hblocking⟩ hother hcounted.nodup
      obtain ⟨hc, hf⟩ := hlower.2 (by dsimp only; split_ifs at href hwr <;> omega)
      exact ⟨hc, hqu, hqb⟩
  · rw [if_neg hw] at hwr
    have hlower := hcounted.lower (n := { s.nodes i with
        blocking := if handle.blocking = true then (s.nodes i).blocking - 1 else (s.nodes i).blocking
        references := (s.nodes i).references - 1 }) hpos rfl
      ⟨by dsimp only; omega, by dsimp only; omega, hblocking⟩ hother hcounted.nodup
    refine .ite (fun hzero ↦ ?_) fun hzero ↦ ?_
    · have hfresh : i ∉ s.queue := fun hq ↦ by
        rw [if_pos hq] at href
        omega
      rw [if_neg hfresh]
      refine (hlower.1 hzero).mono fun s' hs' ↦ ⟨?_, ?_, ?_⟩
      · rw [hs'.2.queue]
        exact hs'.1
      · rw [hs'.2.queueUsage, hs'.2.queue, hs'.2.chunkSize, hqu]
      · rw [hs'.2.queueBlocks, hs'.2.queue, hqb]
    · exact ⟨(hlower.2 hzero).1, hqu, hqb⟩

end ChunkList

end LibTorrent

namespace LibTorrent.ChunkUse

open ChunkList Lib.Outcome Lib.Store List

variable {base : MemoryManager} {x : ChunkUse}

def Unsupported (x : ChunkUse) : Event → Prop
  | .get index flags _ _ => ChunkList.Unsupported index flags x.list
  | _ => False

structure Balanced (base : MemoryManager) (x : ChunkUse) : Prop where
  valid : ∀ h ∈ x.handles, h.node.isSome = true
  accounted : Accounted base x.handles x.list

theorem balanced_start (chunkSize size : ℕ) (memory : MemoryManager) :
    Balanced memory (start chunkSize size memory) := by
  have hzero : (start chunkSize size memory).list.loaded = 0 :=
    countP_eq_zero.mpr fun i _ ↦ Bool.false_ne_true
  refine ⟨nofun, ⟨⟨fun _ ↦ ⟨rfl, rfl, rfl⟩, fun i ↦ ⟨nofun, fun h ↦ absurd h (lt_irrefl 0)⟩, fun _ _ ↦ rfl,
    nodup_nil, ?_, ?_⟩, rfl, rfl⟩⟩
  · rw [hzero]
    rfl
  · rw [hzero]
    rfl

theorem Balanced.get (h : Balanced base x) {index : ℕ} {flags : GetFlags}
    (hmapped : flags.hashing = true ∨ flags.notHashing = true) (env : GetEnv) (hi : index < x.list.size)
    (hsupported : ¬ ChunkList.Unsupported index flags x.list) :
    Gives (step (.get index flags hmapped env) x) (Balanced base) := by
  have hget : Gives (x.list.get index flags env) fun r ↦
      Accounted base (withHandle r.1 x.handles) r.2 := by
    cases hchunk : (x.list.nodes index).chunk with
    | none => exact ensures_get_unloaded h.accounted hi hchunk hmapped env
    | some chunk => exact get_loaded h.accounted hi hchunk hsupported env
  refine hget.bind fun r hr ↦ ?_
  rw [withHandle] at hr
  cases hnode : r.1.node.isSome with
  | false =>
    rw [hnode] at hr
    exact ⟨h.valid, hr⟩
  | true =>
    rw [hnode, if_pos rfl] at hr
    refine ⟨fun handle hmem ↦ ?_, hr.counted.perm (perm_append_singleton _ _).symm (.refl _),
      hr.queueUsage, hr.queueBlocks⟩
    rcases mem_append.mp hmem with hmem | hmem
    · exact h.valid handle hmem
    · rw [mem_singleton.mp hmem, hnode]

theorem Balanced.release (h : Balanced base x) (k : ℕ) : Gives (step (.release k) x) (Balanced base) := by
  rw [step]
  cases hk : x.handles[k]? with
  | none => exact h
  | some handle =>
    obtain ⟨hlt, hget⟩ := List.getElem?_eq_some_iff.mp hk
    obtain ⟨i, hnode⟩ := Option.isSome_iff_exists.mp (h.valid handle (List.mem_of_getElem? hk))
    have hperm : x.handles.Perm (handle :: x.handles.eraseIdx k) := by
      rw [← hget]
      exact (List.getElem_cons_eraseIdx_perm hlt).symm
    have hfirst : Accounted base (handle :: x.handles.eraseIdx k) x.list :=
      { h.accounted with counted := h.accounted.counted.perm hperm (.refl _) }
    refine (ensures_release hfirst hnode).bind fun list hlist ↦ ⟨fun handle' hmem ↦ ?_, hlist⟩
    exact h.valid handle' (List.mem_of_mem_eraseIdx hmem)

theorem Balanced.syncChunks (h : Balanced base x) (flags : SyncFlags) (env : SyncEnv) :
    Gives (step (.syncChunks flags env) x) (Balanced base) :=
  (ensures_syncChunks h.accounted env flags).bind fun _ hr ↦ ⟨h.valid, hr.1⟩

theorem Balanced.step_cases (h : Balanced base x) (e : Event) :
    (∃ x', step e x = .ok x' ∧ Balanced base x' ∧ ¬ Unsupported x e) ∨
      (step e x = .error .outOfRange ∧ ¬ Unsupported x e) ∨
      step e x = .error (.internalError "No support yet for getting write permission for blocked chunk.") ∧
        Unsupported x e := by
  have hok : Gives (step e x) (Balanced base) → ¬ Unsupported x e →
      ∃ x', step e x = .ok x' ∧ Balanced base x' ∧ ¬ Unsupported x e := by
    intro hstep hsupported
    cases hr : step e x with
    | ok x' => exact ⟨x', rfl, hstep.of_ok hr, hsupported⟩
    | error err => rw [hr] at hstep; exact absurd trivial hstep
  cases e with
  | get index flags hmapped env =>
    by_cases hi : index < x.list.size
    · by_cases hsupported : ChunkList.Unsupported index flags x.list
      · refine .inr (.inr ⟨?_, hsupported⟩)
        rw [step, get_unsupported hsupported, error_bind]
      · exact .inl (hok (h.get hmapped env hi hsupported) hsupported)
    · refine .inr (.inl ⟨?_, fun hno ↦ hi hno.1⟩)
      rw [step, ChunkList.get, if_pos (not_lt.mp hi), error_bind]
  | release k => exact .inl (hok (h.release k) id)
  | syncChunks flags env => exact .inl (hok (h.syncChunks flags env) id)

theorem run_balanced {chunkSize size : ℕ} {memory : MemoryManager} {events : List Event}
    (h : run chunkSize size memory events = .ok x) : Balanced memory x := by
  have hrun : Yields (run chunkSize size memory events) (Balanced memory) := by
    refine ensures_forEach_inv (fun e x' hx' ↦ ?_) events (balanced_start chunkSize size memory)
    rcases hx'.step_cases e with ⟨x'', hstep, hx'', -⟩ | ⟨hstep, -⟩ | ⟨hstep, -⟩ <;> rw [hstep]
    · exact hx''
    · exact not_false
    · exact not_false
  exact hrun.of_ok h

theorem run_accounts (chunkSize size : ℕ) (memory : MemoryManager) (events : List Event) (x : ChunkUse)
    (h : run chunkSize size memory events = .ok x) :
    (∀ i, (x.list.nodes i).references = held i x.handles + (if i ∈ x.list.queue then 1 else 0) ∧
      (x.list.nodes i).writable = heldWritable i x.handles + (if i ∈ x.list.queue then 1 else 0) ∧
      (x.list.nodes i).blocking = heldBlocking i x.handles ∧
      ((x.list.nodes i).chunk.isSome = true ↔ 0 < (x.list.nodes i).references) ∧ x.list.queue.count i ≤ 1) ∧
    x.list.memory.memoryUsage = memory.memoryUsage +
      x.list.chunkSize * (range x.list.size).countP (fun i ↦ (x.list.nodes i).chunk.isSome) ∧
    ∀ e, step e x ≠ .error .nullChunk ∧ ∀ message, step e x = .error (.internalError message) ↔
      Unsupported x e ∧ message = "No support yet for getting write permission for blocked chunk." := by
  have hx := run_balanced h
  obtain ⟨hcounted, -, -⟩ := hx.accounted
  refine ⟨fun i ↦ ⟨(hcounted.node i).references, (hcounted.node i).writable, (hcounted.node i).blocking, hcounted.chunk i,
    nodup_iff_count_le_one.mp hcounted.nodup i⟩, ?_, fun e ↦ ?_⟩
  · rw [hcounted.usage, loaded, tally]
    simp only [Option.any_true]
  rcases hx.step_cases e with ⟨x', hstep, -, hno⟩ | ⟨hstep, hno⟩ | ⟨hstep, hun⟩
  all_goals rw [hstep]
  · exact ⟨by simp, fun message ↦ ⟨by simp, fun hun ↦ absurd hun.1 hno⟩⟩
  · exact ⟨by simp, fun message ↦ ⟨by simp, fun hun ↦ absurd hun.1 hno⟩⟩
  refine ⟨by simp, fun message ↦ ⟨fun he ↦ ⟨hun, ?_⟩, fun hm ↦ by rw [hm.2]⟩⟩
  exact (Thrown.internalError.inj (Except.error.inj he)).symm

section Runs

def calm : SyncEnv := ⟨false, false, fun _ ↦ false, fun _ _ ↦ true⟩

def mapping (isWritable : Bool) : GetEnv := ⟨1000, false, calm, .ok ⟨isWritable⟩⟩

theorem run_accounts_synced : ∃ x, run 10 4 ⟨0, 0, 0, 0⟩
      [.get 2 { writable := true, notHashing := true } (.inr rfl) (mapping true), .release 0,
        .syncChunks { all := true, force := true } calm] = .ok x ∧
    x.list.memory.memoryUsage = 0 + 10 * (range x.list.size).countP (fun i ↦ (x.list.nodes i).chunk.isSome) := by
  refine ⟨_, rfl, ?_⟩
  exact (run_accounts 10 4 ⟨0, 0, 0, 0⟩ [.get 2 { writable := true, notHashing := true } (.inr rfl) (mapping true),
    .release 0, .syncChunks { all := true, force := true } calm] _ rfl).2.1

/-- While a chunk that is mapped read-only is blocked for hashing, a peer asks for write access to it. -/
theorem run_accounts_blocked :
    run 10 4 ⟨0, 0, 0, 0⟩ [.get 2 { blocking := true, notHashing := true } (.inr rfl) (mapping false),
      .get 2 { writable := true, notHashing := true } (.inr rfl) (mapping true)] =
    .error (.internalError "No support yet for getting write permission for blocked chunk.") := rfl

end Runs

end LibTorrent.ChunkUse
