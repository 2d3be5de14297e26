import LibTorrent.Transfer.Receiving
import Mathlib.Data.List.GetD

namespace LibTorrent

open Function Lib.Decimal Lib.Memory Lib.Outcome List

namespace BlockFailed

def sets (L : BlockFailed) : List Bytes := L.entries.map Prod.fst

def record (L : BlockFailed) (s : Bytes) : BlockFailed :=
  let i := L.entries.findIdx fun e ↦ e.1 = s
  ⟨if i < L.entries.length then L.entries.modify i fun e ↦ (e.1, e.2 + 1) else L.entries ++ [(s, 1)], i⟩

variable {L : BlockFailed} {s u : Bytes} {i : ℕ}

theorem findIdx_eq (s : Bytes) : (L.entries.findIdx fun e ↦ e.1 = s) = L.sets.idxOf s := by
  rw [sets]
  induction L.entries with
  | nil => rfl
  | cons e l ih =>
    rw [findIdx_cons, map_cons, idxOf_cons, ih]
    by_cases he : e.1 = s
    · simp [he]
    · simp [he, beq_eq_false_iff_ne.mpr he]

theorem map_fst_modify (l : List (Bytes × UInt32)) (i : ℕ) :
    (l.modify i fun e ↦ (e.1, e.2 + 1)).map Prod.fst = l.map Prod.fst := by
  apply ext_getElem?
  intro j
  rw [getElem?_map, getElem?_map, getElem?_modify]
  cases l[j]? with
  | none => rfl
  | some e => by_cases hij : i = j <;> simp [hij]

theorem sets_record : (L.record s).sets = if s ∈ L.sets then L.sets else L.sets ++ [s] := by
  have hlength : L.sets.length = L.entries.length := length_map _
  rw [record, findIdx_eq, ← hlength]
  simp only [idxOf_lt_length_iff]
  split_ifs with h
  · exact map_fst_modify _ _
  · rw [sets, map_append]
    rfl

theorem nodup_record (h : L.sets.Nodup) : (L.record s).sets.Nodup := by
  rw [sets_record]
  split_ifs with hs
  · exact h
  · exact concat_eq_append ▸ h.concat hs

theorem length_record : (L.record s).sets.length ≤ L.sets.length + 1 := by
  rw [sets_record]
  split_ifs
  · exact Nat.le_succ _
  · rw [length_append, length_singleton]

theorem getElem?_record (h : L.sets[i]? = some u) : (L.record s).sets[i]? = some u := by
  rw [sets_record]
  split_ifs
  · exact h
  · rw [List.getElem?_append_left (List.getElem?_eq_some_iff.mp h).1, h]

theorem getElem?_idxOf_record : (L.record s).sets[L.sets.idxOf s]? = some s := by
  rw [sets_record]
  split_ifs with hs
  · exact getElem?_idxOf hs
  · rw [idxOf_eq_length hs, getElem?_concat_length]

theorem mem_record (h : u ∈ (L.record s).sets) : u ∈ L.sets ∨ u = s := by
  rw [sets_record] at h
  split_ifs at h
  · exact .inl h
  · exact (mem_append.mp h).imp_right mem_singleton.mp

end BlockFailed

namespace Assembly

variable {K N : Prop} {S : ℕ → List ℕ} {E : ℕ → Prop} {d d' d'' : Assembly} {b t k n : ℕ} {w : World}
  {φ : ℕ → Phase}

def failures (d : Assembly) (b : ℕ) : BlockFailed := (d.failedList b).getD ⟨[], invalidIndex.toNat⟩

structure Updated (l : List ℕ) (d d' : Assembly) : Prop where
  world : d'.world = d.world
  memory : d'.memory = d.memory
  received : d'.received = d.received
  failed : d'.failed = d.failed
  attempt : d'.attempt = d.attempt
  failedList : ∀ b, d'.failedList b = if b ∈ l then some ((d.failures b).record (d.data b)) else d.failedList b
  leaders : ∀ b ∈ l, ∀ t, (d.world.blocks b).leader = some t →
    d'.failedIndex t = UInt32.ofNat ((d.failures b).sets.idxOf (d.data b))
  others : ∀ t, (∀ b ∈ l, (d.world.blocks b).leader ≠ some t) → d'.failedIndex t = d.failedIndex t

theorem updateFailed_updated : Works (updateFailed b (n, d)) fun o ↦ Updated [b] d o.2 := by
  unfold updateFailed
  dsimp only
  cases hl : (d.world.blocks b).leader with
  | none => exact id
  | some l =>
    refine ⟨rfl, rfl, rfl, rfl, rfl, fun c ↦ ?_, fun c hc t ht ↦ ?_, fun t ht ↦ ?_⟩
    · by_cases hc : c = b
      · subst hc
        exact (update_self c _ _).trans (if_pos mem_cons_self).symm
      · exact (update_of_ne hc _ _).trans (if_neg fun hm ↦ hc (mem_singleton.mp hm)).symm
    · obtain rfl := mem_singleton.mp hc
      obtain rfl := Option.mem_unique hl ht
      refine (update_self l _ _).trans ?_
      rw [BlockFailed.findIdx_eq]
      rfl
    · have hne : t ≠ l := fun he ↦ ht b mem_cons_self (he ▸ hl)
      exact update_of_ne hne _ _

theorem forEach_updateFailed (hl : l.Nodup)
    (hlead : ∀ b c t, (d.world.blocks b).leader = some t → (d.world.blocks c).leader = some t → b = c) :
    Works (forEach updateFailed l (n, d)) fun o ↦ Updated l d o.2 := by
  induction l generalizing n d with
  | nil => exact ⟨rfl, rfl, rfl, rfl, rfl, fun _ ↦ rfl, nofun, fun _ _ ↦ rfl⟩
  | cons b l ih =>
    rw [nodup_cons] at hl
    refine updateFailed_updated.bind fun ⟨n₁, d₁⟩ h₁ ↦ ?_
    refine (ih hl.2 (by rw [h₁.world]; exact hlead)).mono fun ⟨n₂, d₂⟩ h₂ ↦ ?_
    have hdata : ∀ c, d₁.data c = d.data c := fun c ↦ by rw [data, data, h₁.world, h₁.memory]
    have hlist : ∀ c ∈ l, d₁.failures c = d.failures c := fun c hc ↦ by
      have hne : c ≠ b := fun he ↦ hl.1 (he ▸ hc)
      rw [failures, failures, h₁.failedList, if_neg (by simpa using hne)]
    refine ⟨h₂.world.trans h₁.world, h₂.memory.trans h₁.memory, h₂.received.trans h₁.received,
      h₂.failed.trans h₁.failed, h₂.attempt.trans h₁.attempt, fun c ↦ ?_, fun c hc t ht ↦ ?_, fun t ht ↦ ?_⟩
    · rw [h₂.failedList]
      by_cases hc : c ∈ l
      · rw [if_pos hc, if_pos (mem_cons_of_mem b hc), hlist c hc, hdata]
      · rw [if_neg hc, h₁.failedList]
        simp [hc]
    · rcases mem_cons.mp hc with rfl | hc
      · rw [h₂.others t fun e he ht' ↦ hl.1 (hlead e c t (h₁.world ▸ ht') ht ▸ he)]
        exact h₁.leaders c mem_cons_self t ht
      · rw [h₂.leaders c hc t (by rw [h₁.world, ht]), hlist c hc, hdata]
    · rw [h₂.others t fun c hc ↦ by rw [h₁.world]; exact ht c (mem_cons_of_mem b hc)]
      exact h₁.others t fun c hc ↦ mem_singleton.mp hc ▸ ht b mem_cons_self

end Assembly

variable {v : Progress} {w : World} {φ : ℕ → Phase} {b t l : ℕ} {x : BlockTransfer}

theorem LinedAt.transfers_eq (h : LinedAt v w b) (htracks : Tracks w φ) (hdone : (w.blocks b).state = .completed) :
    ∃ l x, (w.blocks b).leader = some l ∧ w.heap l = some x ∧ x.isFinished = true ∧
      (w.blocks b).transfers = v.stale b ++ [l] := by
  have halive : ∀ u ∈ (w.blocks b).transfers, ∃ y, w.heap u = some y := fun u hu ↦ by
    obtain ⟨y, hy, _⟩ := htracks.alive u fun hc ↦ by
      have hact := ((htracks.placed u).transfers b).mp hu
      rw [hc] at hact
      cases hact
    exact ⟨y, hy⟩
  obtain ⟨l, hl, hfinished⟩ := h.ended hdone
  have hmem := h.led l hl
  obtain ⟨x, hx⟩ := halive l hmem
  obtain ⟨hfilter, _⟩ := h.filter_leaders hl hx (h.done hdone l hmem x hx) (htracks.settled b).nodupTransfers halive
  refine ⟨l, x, hl, hx, hfinished x hx, ?_⟩
  rw [← hfilter, List.filter_eq_self.mpr]
  intro u hu
  exact isState_of (halive u hu) (h.done hdone u hu)

namespace Assembly

variable {K N : Prop} {S : ℕ → List ℕ} {E : ℕ → Prop} {d d' : Assembly} {k n : ℕ}

/-- The data that the transfer is known to have sent when the hash of its block failed. -/
def recorded (d : Assembly) (b t : ℕ) : Option Bytes :=
  if d.failedIndex t = invalidIndex then none
  else (d.failedList b).bind fun L ↦ L.sets[(d.failedIndex t).toNat]?

/-- The failed lists tell what the leaders of failed attempts have sent. -/
structure Noted (S : ℕ → List ℕ) (k : ℕ) (d : Assembly) : Prop where
  distinct : ∀ b L, d.failedList b = some L → L.sets.Nodup
  count : d.failed.toNat = k + if d.attempt = 0 then 0 else 1
  small : ∀ b L, d.failedList b = some L → L.sets.length ≤ d.failed.toNat
  stale : ∀ b < d.world.size, ∀ t ∈ S b, d.recorded b t = some (d.received t)
  retried : d.attempt ≠ 0 → ∀ b < d.world.size, ∀ l, (d.world.blocks b).leader = some l →
    d.recorded b l = some (d.received l)
  others : ∀ t, d.failedIndex t ≠ invalidIndex → ∃ b < d.world.size,
    t ∈ S b ∨ d.attempt ≠ 0 ∧ (d.world.blocks b).leader = some t

/-- The invariant of a run, with `k` failed attempts before this one. The records are right if no
counter went round. -/
structure Sound (N : Prop) (S : ℕ → List ℕ) (k : ℕ) (d : Assembly) : Prop where
  flowing : Flowing (d.attempt = 0 ∨ k = 0) S (fun _ ↦ False) d
  stale : ∀ b < d.world.size, (S b).length = k
  checked : d.attempt ≠ 0 → ∀ b < d.world.size, (d.world.blocks b).state = .completed
  first : d.attempt = 0 → k = 0 → ∀ b < d.world.size, d.failedList b = none
  sized : ∀ b L, d.failedList b = some L → ∀ s ∈ L.sets, s.length = (d.world.blocks b).piece.length.toNat
  noted : N → Noted S k d

theorem Flowing.congr {K' : Prop} (h : Flowing K S E d) (hworld : d'.world = d.world) (hmemory : d'.memory = d.memory)
    (hreceived : d'.received = d.received) (hK : K' → K) : Flowing K' S E d' := by
  refine ⟨hworld ▸ h.consistent, fun b ↦ ?_, hworld ▸ h.laid, hworld ▸ h.counted, by rw [hworld, hreceived]; exact h.fresh⟩
  refine (h.lined b).congr (by rw [hworld]) (by rw [hworld]) (fun t _ ↦ ⟨by rw [hworld], ?_⟩) rfl hK id fun _ _ ↦ ?_
  · exact congrFun hreceived t
  · exact congrArg (load · _ _) hmemory

theorem Flowing.data_eq (h : Flowing K S E d) (hK : K) (hdone : (d.world.blocks b).state = .completed)
    (hl : (d.world.blocks b).leader = some l) (hx : d.world.heap l = some x) : d.data b = d.received l := by
  have hmem := (h.lined b).led l hl
  obtain ⟨l', hl', hfinished⟩ := (h.lined b).ended hdone
  obtain rfl := Option.mem_unique hl hl'
  have hpos := of_decide_eq_true (hfinished x hx)
  have hfilled := (h.lined b).filled l x hmem hx (.inr ⟨hl, fun _ ↦ hK⟩)
  rw [hpos, (h.lined b).piece l x (.inr hmem) hx] at hfilled
  exact hfilled.symm

theorem Flowing.replace {f : ℕ → Option BlockFailed} (h : Flowing K S E d) (hK : ¬ K)
    (hdone : (d.world.blocks b).state = .completed) (hs : s.length ≤ (d.world.blocks b).piece.length.toNat) :
    Flowing K S E { d with
      memory := store d.memory (d.world.blocks b).piece.offset.toNat s
      failedList := f } := by
  refine ⟨h.consistent, fun c ↦ ?_, h.laid, h.counted, h.fresh⟩
  by_cases hc : c = b
  · subst hc
    refine { h.lined c with filled := fun t x ht hx hor ↦ ?_ }
    rcases hor with hstate | ⟨_, hintact⟩
    · exact absurd ((h.lined c).done hdone t ht x hx ▸ hstate) nofun
    · exact absurd (hintact hdone) hK
  · refine (h.lined c).congr rfl le_rfl (fun _ _ ↦ ⟨rfl, rfl⟩) rfl id id fun n hn ↦ ?_
    exact h.laid.load_store (fun he ↦ hc he.symm) le_rfl (Nat.add_le_add_left hs _) hn

theorem Sound.of_sequel (h : Sound N S k d) (hflow : Flows (d.attempt = 0 ∨ k = 0) S d')
    (hseq : Sequel S d d') : Sound N S k d' := by
  have hrecorded : ∀ b t, d'.recorded b t = d.recorded b t := fun b t ↦ by
    rw [recorded, recorded, hseq.failedIndex, hseq.failedList]
  refine ⟨by rw [hseq.attempt]; exact hflow, by rw [hseq.size]; exact h.stale, fun ha b hb ↦ ?_, ?_, fun b L hL s hs ↦ ?_,
    fun hN ↦ ⟨?_, ?_, ?_, fun b hb t ht ↦ ?_, fun ha b hb l hl ↦ ?_, fun t ht ↦ ?_⟩⟩
  · exact (hseq.completed b (h.checked (hseq.attempt ▸ ha) b (hseq.size ▸ hb))).1
  · rw [hseq.attempt, hseq.size, hseq.failedList]
    exact h.first
  · rw [hseq.failedList] at hL
    rw [hseq.piece]
    exact h.sized b L hL s hs
  · rw [hseq.failedList]
    exact (h.noted hN).distinct
  · rw [hseq.failed, hseq.attempt]
    exact (h.noted hN).count
  · rw [hseq.failedList, hseq.failed]
    exact (h.noted hN).small
  · rw [hrecorded, hseq.stale b t ht]
    exact (h.noted hN).stale b (hseq.size ▸ hb) t ht
  · rw [hseq.attempt] at ha
    rw [hseq.size] at hb
    have hdone := h.checked ha b hb
    rw [(hseq.completed b hdone).2] at hl
    rw [hrecorded, hseq.received b l hdone hl]
    exact (h.noted hN).retried ha b hb l hl
  rw [hseq.failedIndex] at ht
  obtain ⟨b, hb, hor⟩ := (h.noted hN).others t ht
  refine ⟨b, hseq.size ▸ hb, hor.imp_right fun ⟨ha, hl⟩ ↦ ⟨hseq.attempt ▸ ha, ?_⟩⟩
  rw [(hseq.completed b (h.checked ha b hb)).2]
  exact hl

theorem Sound.of_corrupt {c : List ℕ} (h : Sound N S k d) : Sound N S k { d with corrupt := c } :=
  h.of_sequel (h.flowing.congr rfl rfl rfl id)
    ⟨rfl, fun _ ↦ rfl, fun _ hb ↦ ⟨hb, rfl⟩, rfl, rfl, rfl, rfl, fun _ _ _ ↦ rfl, fun _ _ _ _ ↦ rfl⟩

end Assembly

open BlockFailed Option UInt32

namespace Assembly

variable {K N : Prop} {S : ℕ → List ℕ} {d d' : Assembly} {b t l k n : ℕ} {w : World} {φ : ℕ → Phase}
variable {E : ℕ → Prop} {c : ℕ} {L : BlockFailed} {s : Bytes}

theorem Flowing.leader_inj (h : Flowing K S E d) (hb : (d.world.blocks b).leader = some t)
    (hc : (d.world.blocks c).leader = some t) : b = c := by
  obtain ⟨φ, hφ⟩ := h.consistent
  exact hφ.tracks.apart b t (.inr ((h.lined b).led t hb)) (.inr ((h.lined c).led t hc))

theorem Flowing.alive (h : Flowing K S E d) (ht : t ∈ (d.world.blocks b).transfers) :
    ∃ x p, d.world.heap t = some x ∧ x.peerInfo = some p := by
  obtain ⟨φ, hφ⟩ := h.consistent
  obtain ⟨x, hx, hpeer, _⟩ := hφ.tracks.alive t fun hc ↦ by
    have hact := ((hφ.tracks.placed t).transfers b).mp ht
    rw [hc] at hact
    cases hact
  obtain ⟨p, hp⟩ := ne_none_iff_exists'.mp hpeer
  exact ⟨x, p, hx, hp⟩

theorem Flowing.stale_not_leader (h : Flowing K S E d) (ht : t ∈ S b) : (d.world.blocks c).leader ≠ some t := by
  intro hc
  obtain ⟨φ, hφ⟩ := h.consistent
  obtain ⟨new, hsplit, hold, _⟩ := (h.lined b).order
  have hmem : t ∈ (d.world.blocks b).transfers := by
    rw [hsplit]
    exact mem_append_left _ ht
  obtain rfl := hφ.tracks.apart c t (.inr ((h.lined c).led t hc)) (.inr hmem)
  exact (hold t ht).1 hc

theorem recorded_eq {i : ℕ} (hL : d.failedList b = some L)
    (hi : d.failedIndex t = ofNat i) (hs : L.sets[i]? = some s) (hlen : L.sets.length < 2 ^ 32) :
    d.recorded b t = some s := by
  have hlt : i < L.sets.length := (List.getElem?_eq_some_iff.mp hs).1
  have hnat := toNat_ofNat_of_lt' (hlt.trans hlen)
  have hne : ofNat i ≠ invalidIndex := fun he ↦ by
    have hmax : i = 4294967295 := by rw [← hnat, he]; rfl
    omega
  rw [recorded, hi, if_neg hne, hL, hnat]
  exact hs

theorem recorded_inv (h : d.recorded b t = some s) : d.failedIndex t ≠ invalidIndex ∧
    ∃ L, d.failedList b = some L ∧ L.sets[(d.failedIndex t).toNat]? = some s := by
  rw [recorded] at h
  split_ifs at h with hi
  obtain ⟨L, hL, hs⟩ := bind_eq_some_iff.mp h
  exact ⟨hi, L, hL, hs⟩

theorem Sound.updated (h : Sound N S k d) (hattempt : d.attempt = 0)
    (hall : ∀ b < d.world.size, (d.world.blocks b).state = .completed) (hN : N → d.failed ≠ 0xFFFFFFFF)
    (hu : Updated (List.range d.world.size) { d with failed := d.failed + 1 } d') :
    Sound N S k { d' with attempt := 1 } ∧
      (k = 0 → ∀ b < d'.world.size, ∃ e, d'.failedList b = some ⟨[e], 0⟩) := by
  have hworld : d'.world = d.world := hu.world
  have hlist : ∀ b < d.world.size, d'.failedList b = some ((d.failures b).record (d.data b)) := fun b hb ↦
    (hu.failedList b).trans (if_pos (mem_range.mpr hb))
  have hout : ∀ b, ¬ b < d.world.size → d'.failedList b = d.failedList b := fun b hb ↦
    (hu.failedList b).trans (if_neg fun hc ↦ hb (mem_range.mp hc))
  have hfailures {P : ℕ → BlockFailed → Prop} (hempty : ∀ b, P b ⟨[], invalidIndex.toNat⟩)
      (hP : ∀ b L, d.failedList b = some L → P b L) (b : ℕ) : P b (d.failures b) := by
    rw [failures]
    cases hL : d.failedList b with
    | none => exact hempty b
    | some L => exact hP b L hL
  -- the list of a block, before and after
  have hcases : ∀ b L, d'.failedList b = some L → d.failedList b = some L ∨
      b < d.world.size ∧ L = (d.failures b).record (d.data b) := by
    intro b L hL
    by_cases hb : b < d.world.size
    · exact .inr ⟨hb, some.inj (hL.symm.trans (hlist b hb))⟩
    · exact .inl (hout b hb ▸ hL)
  have hflow : Flowing (({ d' with attempt := 1 } : Assembly).attempt = 0 ∨ k = 0) S (fun _ ↦ False)
      { d' with attempt := 1 } := h.flowing.congr hworld hu.memory hu.received fun _ ↦ .inl hattempt
  refine ⟨⟨hflow, ?_, fun _ ↦ ?_, fun hc ↦ absurd hc (by simp), fun b L hL s hs ↦ ?_, fun hn ↦ ?_⟩, fun hk b hb ↦ ?_⟩
  · exact hworld ▸ h.stale
  · exact hworld ▸ hall
  · rw [hworld]
    rcases hcases b L hL with hL | ⟨hb, rfl⟩
    · exact h.sized b L hL s hs
    rcases mem_record hs with hs | rfl
    · exact hfailures (fun _ _ hs ↦ absurd hs not_mem_nil) h.sized b s hs
    · exact length_load
  · have hnoted := h.noted hn
    have hfailed : (d.failed + 1).toNat = d.failed.toNat + 1 := by
      have hne : d.failed.toNat ≠ 4294967295 := fun hc ↦ hN hn (UInt32.toNat_inj.mp hc)
      have hlt := d.failed.toNat_lt
      rw [UInt32.toNat_add]
      exact Nat.mod_eq_of_lt (by simp only [toNat_ofNat]; omega)
    have hsmall := hfailures (fun _ ↦ Nat.zero_le _) hnoted.small
    have hsmall' : ∀ b L, d'.failedList b = some L → L.sets.length ≤ d.failed.toNat + 1 := by
      intro b L hL
      rcases hcases b L hL with hL | ⟨_, rfl⟩
      · exact (hnoted.small b L hL).trans (Nat.le_succ _)
      · exact length_record.trans (Nat.succ_le_succ (hsmall b))
    refine ⟨fun b L hL ↦ ?_, ?_, fun b L hL ↦ ?_, fun b hb t ht ↦ ?_, fun _ b hb l hl ↦ ?_, fun t ht ↦ ?_⟩
    · rcases hcases b L hL with hL | ⟨_, rfl⟩
      · exact hnoted.distinct b L hL
      exact nodup_record (hfailures (fun _ ↦ nodup_nil) hnoted.distinct b)
    · have hcount := hnoted.count
      rw [if_pos hattempt] at hcount
      rw [hu.failed, hfailed, hcount]
      rfl
    · rw [hu.failed, hfailed]
      exact hsmall' b L hL
    · rw [hworld] at hb
      obtain ⟨hi, L, hL, hs⟩ := recorded_inv (hnoted.stale b hb t ht)
      have hindex := hu.others t fun c _ ↦ h.flowing.stale_not_leader ht
      have hf : d.failures b = L := by rw [failures, hL]; rfl
      rw [recorded, hindex, if_neg hi, hlist b hb, hf, hu.received]
      exact getElem?_record hs
    · rw [hworld] at hb hl
      obtain ⟨x, p, hx, _⟩ := h.flowing.alive ((h.flowing.lined b).led l hl)
      have hlt := (d.failed + 1).toNat_lt
      rw [hu.received, ← h.flowing.data_eq (.inl hattempt) (hall b hb) hl hx]
      exact recorded_eq (hlist b hb) (hu.leaders b (mem_range.mpr hb) l hl) getElem?_idxOf_record
        ((hsmall' b _ (hlist b hb)).trans_lt (hfailed ▸ hlt))
    change ∃ b < d'.world.size, t ∈ S b ∨ (1 : UInt32) ≠ 0 ∧ (d'.world.blocks b).leader = some t
    rw [hworld]
    by_cases hlead : ∃ b < d.world.size, (d.world.blocks b).leader = some t
    · obtain ⟨b, hb, hl⟩ := hlead
      exact ⟨b, hb, .inr ⟨by decide, hl⟩⟩
    have hindex : d'.failedIndex t = d.failedIndex t := hu.others t fun b hb hl ↦
      hlead ⟨b, mem_range.mp hb, hl⟩
    obtain ⟨b, hb, hor⟩ := hnoted.others t (hindex ▸ ht)
    exact ⟨b, hb, .inl (hor.resolve_right fun hc ↦ hc.1 hattempt)⟩
  · rw [hworld] at hb
    refine ⟨(d.data b, 1), ?_⟩
    rw [hlist b hb, failures, h.first hattempt hk b hb]
    rfl

def SameSets (d d' : Assembly) : Prop :=
  ∀ b, (d'.failedList b).map sets = (d.failedList b).map sets

theorem SameSets.back (h : SameSets d d') (hL : d'.failedList b = some L) :
    ∃ L', d.failedList b = some L' ∧ L'.sets = L.sets := by
  have hb := h b
  rw [hL, Option.map_some] at hb
  exact map_eq_some_iff.mp hb.symm

theorem SameSets.recorded (h : SameSets d d') (hindex : d'.failedIndex = d.failedIndex) (b t : ℕ) :
    d'.recorded b t = d.recorded b t := by
  have hsets : ∀ e : Assembly, e.recorded b t = if e.failedIndex t = invalidIndex then none
      else ((e.failedList b).map sets).bind fun l ↦ l[(e.failedIndex t).toNat]? := by
    intro e
    rw [Option.bind_map]
    rfl
  rw [hsets, hsets, h b, hindex]

theorem Sound.retried {m : ℕ → UInt8} {f : ℕ → Option BlockFailed} (h : Sound N S k d) (hattempt : d.attempt ≠ 0)
    (hflow : Flows (d.attempt = 0 ∨ k = 0) S { d with memory := m, failedList := f })
    (hf : SameSets d { d with memory := m, failedList := f }) : Sound N S k { d with memory := m, failedList := f } := by
  refine ⟨hflow, h.stale, h.checked, fun hc ↦ absurd hc hattempt, fun b L hL s hs ↦ ?_, fun hN ↦ ⟨fun b L hL ↦ ?_,
    (h.noted hN).count, fun b L hL ↦ ?_, fun b hb t ht ↦ ?_, fun ha b hb l hl ↦ ?_, (h.noted hN).others⟩⟩
  · obtain ⟨L', hL', hsets⟩ := hf.back hL
    exact h.sized b L' hL' s (hsets ▸ hs)
  · obtain ⟨L', hL', hsets⟩ := hf.back hL
    exact hsets ▸ (h.noted hN).distinct b L' hL'
  · obtain ⟨L', hL', hsets⟩ := hf.back hL
    exact hsets ▸ (h.noted hN).small b L' hL'
  · rw [hf.recorded rfl]
    exact (h.noted hN).stale b hb t ht
  · rw [hf.recorded rfl]
    exact (h.noted hN).retried ha b hb l hl

/-- The state while the most popular data is put in place. In the first attempt there is but one
data set for each block. -/
def Retrying (N : Prop) (S : ℕ → List ℕ) (k : ℕ) (l : List ℕ) (d : Assembly) : Prop :=
  Sound N S k d ∧ d.attempt ≠ 0 ∧ (∀ b ∈ l, b < d.world.size) ∧
    (k = 0 → ∀ b < d.world.size, ∃ e, d.failedList b = some ⟨[e], 0⟩)

theorem retrying_retryMostPopular {c : List ℕ} (h : Retrying N S k (b :: c) d) :
    Works (retryMostPopular b d) (Retrying N S k c) := by
  obtain ⟨hsound, hattempt, hl, hfirst⟩ := h
  have hb := hl b mem_cons_self
  have hrest : ∀ b ∈ c, b < d.world.size := fun b hb ↦ hl b (mem_cons_of_mem _ hb)
  unfold retryMostPopular
  cases hL : d.failedList b with
  | none => exact id
  | some L =>
    dsimp only
    cases hi : reverseMaxElement L.entries with
    | none => simp [blockFault]
    | some i =>
      refine .ite (fun _ ↦ ⟨hsound, hattempt, hrest, hfirst⟩) fun hne ↦ ?_
      have hk : k ≠ 0 := fun hk ↦ by
        obtain ⟨e, he⟩ := hfirst hk b hb
        obtain rfl := mem_unique hL he
        exact hne (some.inj hi).symm
      have hlength : (L.entries.getD i ([], 0)).1.length ≤ (d.world.blocks b).piece.length.toNat := by
        rw [getD_eq_getElem?_getD]
        cases he : L.entries[i]? with
        | none => exact Nat.zero_le _
        | some e => exact (hsound.sized b L hL e.1 (mem_map_of_mem (mem_of_getElem? he))).le
      refine ⟨hsound.retried hattempt (hsound.flowing.replace (fun hc ↦ hc.elim hattempt hk)
        (hsound.checked hattempt b hb) hlength) fun c ↦ ?_, hattempt, hrest, fun hc ↦ absurd hc hk⟩
      dsimp only
      by_cases hc : c = b
      · subst hc
        rw [update_self, hL]
        rfl
      · rw [update_of_ne hc]

def reopened (d : Assembly) (w : World) : Assembly :=
  { d with
    world := w
    attempt := 0
    failedList b := if b < w.size then (d.failedList b).map fun l ↦ { l with current := invalidIndex.toNat }
      else d.failedList b }

theorem SameSets.reopened : SameSets d (d.reopened w) := by
  intro b
  rw [Assembly.reopened]
  dsimp only
  split_ifs
  · rw [Option.map_map]
    rfl
  · rfl

theorem sound_doAllFailed (h : Sound N S k d) (hattempt : d.attempt ≠ 0) :
    Works (doAllFailed d) fun d' ↦ ∃ S', Sound N S' (k + 1) d' := by
  obtain ⟨φ, hφ⟩ := h.flowing.consistent
  have hall := h.checked hattempt
  have hsmall : ∀ t b, (φ t).home = some b → b < d.world.size := fun t b hb ↦ (hφ.small t b hb).1
  have hcons := ensures_doAllFailed hφ.tracks hφ.balanced hall hsmall
  have hlined := lined_doAllFailed (K := True) (E := fun _ ↦ False)
    h.flowing.lined (fun _ ↦ rfl) hφ.tracks hsmall hall
  refine (hcons.both hlined).bind fun w ⟨hadvance, hw, hnext, hsize, hfinished, hzero, hblocks⟩ ↦ ?_
  refine ⟨fun b ↦ if b < d.world.size then (d.world.blocks b).transfers else [],
    (?_ : Sound N _ (k + 1) (d.reopened w))⟩
  have hflow : Flowing ((d.reopened w).attempt = 0 ∨ k + 1 = 0)
      (fun b ↦ if b < d.world.size then (d.world.blocks b).transfers else []) (fun _ ↦ False) (d.reopened w) := by
    refine ⟨hφ.consistent hadvance, fun b ↦ ?_, h.flowing.laid.of_piece hsize fun b ↦ (hblocks b).1,
      hfinished.trans hzero.symm, fun t ht ↦ h.flowing.fresh t (hnext ▸ ht)⟩
    exact (hw b).congr rfl le_rfl (fun _ _ ↦ ⟨rfl, rfl⟩) rfl (fun _ ↦ trivial) id fun _ _ ↦ rfl
  have hsets : SameSets d (d.reopened w) := .reopened
  have htransfers : ∀ b < d.world.size, ∃ l, (d.world.blocks b).leader = some l ∧
      (d.world.blocks b).transfers = S b ++ [l] := fun b hb ↦ by
    obtain ⟨l, _, hl, _, _, heq⟩ := (h.flowing.lined b).transfers_eq hφ.tracks (hall b hb)
    exact ⟨l, hl, heq⟩
  refine ⟨hflow, fun b hb ↦ ?_, fun hc ↦ absurd rfl hc, fun _ hc ↦ absurd hc (Nat.succ_ne_zero k), fun b L hL s hs ↦ ?_,
    fun hN ↦ ⟨fun b L hL ↦ ?_, ?_, fun b L hL ↦ ?_, fun b hb t ht ↦ ?_, fun hc ↦ absurd rfl hc, fun t ht ↦ ?_⟩⟩
  · rw [show (d.reopened w).world = w from rfl, hsize] at hb
    obtain ⟨l, _, heq⟩ := htransfers b hb
    rw [if_pos hb, heq, length_append, h.stale b hb, length_singleton]
  · obtain ⟨L', hL', heq⟩ := hsets.back hL
    rw [show (d.reopened w).world = w from rfl, (hblocks b).1]
    exact h.sized b L' hL' s (heq ▸ hs)
  · obtain ⟨L', hL', heq⟩ := hsets.back hL
    exact heq ▸ (h.noted hN).distinct b L' hL'
  · have hcount := (h.noted hN).count
    rw [if_neg hattempt] at hcount
    exact hcount
  · obtain ⟨L', hL', heq⟩ := hsets.back hL
    exact heq ▸ (h.noted hN).small b L' hL'
  · rw [show (d.reopened w).world = w from rfl, hsize] at hb
    obtain ⟨l, hl, heq⟩ := htransfers b hb
    rw [if_pos hb, heq] at ht
    rw [hsets.recorded rfl]
    rcases mem_append.mp ht with ht | ht
    · exact (h.noted hN).stale b hb t ht
    · rw [mem_singleton.mp ht]
      exact (h.noted hN).retried hattempt b hb l hl
  · obtain ⟨b, hb, hor⟩ := (h.noted hN).others t ht
    obtain ⟨l, hl, heq⟩ := htransfers b hb
    refine ⟨b, by rwa [show (d.reopened w).world = w from rfl, hsize], .inl ?_⟩
    rw [if_pos hb, heq]
    rcases hor with ht | ⟨_, ht⟩
    · exact mem_append_left _ ht
    · obtain rfl := mem_unique hl ht
      exact mem_append_right _ mem_cons_self

theorem safe_allFinished : Works (allFinished w) fun _ ↦ True := by
  refine (safe_countFinished fun _ _ ↦ False.elim).bind fun _ _ ↦ trivial

theorem safe_firstPeer {l : List ℕ} : Works (firstPeer w l) fun _ ↦ True := by
  induction l with
  | nil => trivial
  | cons b l ih =>
    rw [firstPeer]
    cases (w.blocks b).transfers with
    | nil => exact ih
    | cons t _ => exact safe_get.bind fun _ _ ↦ trivial

theorem safe_allFrom {p : Option ℕ} {l : List ℕ} : Works (allFrom w p l) fun _ ↦ True := by
  induction l with
  | nil => trivial
  | cons b l ih => exact safe_findIf.bind fun _ _ ↦ .either trivial ih

theorem safe_singlePeer : Works (singlePeer w) fun _ ↦ True :=
  safe_firstPeer.bind fun _ _ ↦ safe_allFrom.bind fun _ _ ↦ trivial

theorem sound_retry (h : Sound N S k d) (hall : ∀ b < d.world.size, (d.world.blocks b).state = .completed)
    (hN : N → d.failed ≠ 0xFFFFFFFF) : Works (retry d) fun d' ↦ ∃ S' k', Sound N S' k' d' := by
  refine .ite (fun ha ↦ (sound_doAllFailed h ha).mono fun d' ⟨S', h'⟩ ↦ ⟨S', _, h'⟩) fun ha ↦ ?_
  refine (forEach_updateFailed (d := { d with failed := d.failed + 1 }) nodup_range fun b c t hb hc ↦
    h.flowing.leader_inj hb hc).bind fun ⟨n, d₁⟩ hu ↦ ?_
  obtain ⟨h₁, hfirst⟩ := h.updated (not_not.mp ha) hall hN hu
  refine .either ?_
    ((sound_doAllFailed h₁ (by decide : (1 : UInt32) ≠ 0)).mono fun d' ⟨S', h'⟩ ↦ ⟨S', _, h'⟩)
  have hstart : Retrying N S k (List.range d₁.world.size) { d₁ with attempt := 1 } :=
    ⟨h₁, (by decide : (1 : UInt32) ≠ 0), fun b hb ↦ mem_range.mp hb, hfirst⟩
  have hstep : ∀ b l e, Retrying N S k (b :: l) e → Works (retryMostPopular b e) (Retrying N S k l) :=
    fun b l e ↦ retrying_retryMostPopular
  exact (ensures_forEach hstep _ hstart).mono fun d' h' ↦ ⟨S, k, h'.1⟩

theorem sound_step (e : Event) (h : Sound N S k d) (hN : N → e = .hashFailed → d.failed ≠ 0xFFFFFFFF) :
    Works (step e d) fun d' ↦ ∃ S' k', Sound N S' k' d' := by
  cases e with
  | request a ha => exact (flowing_request ha h.flowing).mono fun d' ⟨hflow, hseq⟩ ↦ ⟨S, k, h.of_sequel hflow hseq⟩
  | receive p bytes => exact (flowing_receive h.flowing).mono fun d' ⟨hflow, hseq⟩ ↦ ⟨S, k, h.of_sequel hflow hseq⟩
  | hashFailed =>
    refine .ite (fun hcheck ↦ ?_) fun _ ↦ ⟨S, k, h⟩
    have hall : ∀ b < d.world.size, (d.world.blocks b).state = .completed := fun b hb ↦
      of_decide_eq_true (all_eq_true.mp hcheck.2 b (mem_range.mpr hb))
    refine .either (by simp [blockFault]) (safe_allFinished.bind fun finished _ ↦ ?_)
    refine .either (by simp [blockFault]) (safe_singlePeer.bind fun peer _ ↦ ?_)
    exact sound_retry h.of_corrupt hall fun hn ↦ hN hn rfl

theorem sound_start (layout : BlockLayout) (memory : ℕ → UInt8) (counters : ℕ → ℕ) (connected : ℕ → Bool) :
    Sound N (fun _ ↦ []) 0 (start layout memory counters connected) := by
  have hpiece : ∀ b, ((start layout memory counters connected).world.blocks b).piece =
      layout.pieces.getD b ⟨0, 0, 0⟩ := fun _ ↦ rfl
  have hin : ∀ {b}, b < layout.pieces.length → layout.pieces.getD b ⟨0, 0, 0⟩ ∈ layout.pieces := fun hb ↦ by
    rw [getD_eq_getElem _ _ hb]
    exact getElem_mem hb
  have hout : ∀ {b}, ¬ b < layout.pieces.length → layout.pieces.getD b ⟨0, 0, 0⟩ = ⟨0, 0, 0⟩ := fun hb ↦
    getD_eq_default _ _ (not_lt.mp hb)
  refine ⟨⟨consistent_start _ _ _, fun b ↦ .of_nowhere ?_ rfl nofun rfl, ⟨fun b hb ↦ ?_, fun b ↦ ?_, fun b c hbc ↦ ?_⟩, ?_,
    fun _ _ ↦ rfl⟩, fun _ _ ↦ rfl, fun hc ↦ absurd rfl hc, fun _ _ _ _ ↦ rfl, nofun,
    fun _ ↦ ⟨nofun, rfl, nofun, nofun, fun hc ↦ absurd rfl hc, fun t ht ↦ absurd rfl ht⟩⟩
  · intro u hu
    exact hu.elim (fun hc ↦ by cases hc) fun hc ↦ by cases hc
  · exact layout.positive _ (hin hb)
  · rw [hpiece]
    by_cases hb : b < layout.pieces.length
    · exact layout.within _ (hin hb)
    · rw [hout hb]
      decide
  · rw [hpiece, hpiece]
    by_cases hc : c < layout.pieces.length
    · by_cases hb : b < layout.pieces.length
      · rw [getD_eq_getElem _ _ hb, getD_eq_getElem _ _ hc]
        rcases lt_or_gt_of_ne hbc with hlt | hlt
        · exact .inl (pairwise_iff_getElem.mp layout.ordered b c hb hc hlt)
        · exact .inr (.inl (pairwise_iff_getElem.mp layout.ordered c b hc hb hlt))
      · rw [hout hb]
        exact .inl (Nat.zero_le _)
    · rw [hout hc]
      exact .inr (.inr rfl)
  · rw [World.completedCount, Finset.filter_false_of_mem]
    · rfl
    · exact fun _ _ ↦ nofun

end Assembly

end LibTorrent
