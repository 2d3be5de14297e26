import LibTorrent.Lib.Outcome
import Mathlib.Algebra.Order.BigOperators.Group.List
import Mathlib.Data.List.GetD
import Mathlib.Tactic.IntervalCases

namespace LibTorrent

open Function Lib.Outcome List Nat

/-- The values of a layer in the order of their insertion, and how many of them have been taken. -/
structure Layer where
  popped : ℕ
  values : List ℕ

structure PartialQueue where
  enabled : Bool := false
  maxLayerSize : ℕ := 0
  index : ℕ := 0
  ceiling : ℕ := 0
  layers : ℕ → Layer := fun _ ↦ ⟨0, []⟩

namespace PartialQueue

def numLayers : ℕ := 8

/-- Layer `l` takes the keys below `ceilingOf l` that no lower layer takes. -/
def ceilingOf (layer : ℕ) : ℕ := 2 * 2 ^ layer - 1

variable (q : PartialQueue)

def isFull : Bool := q.ceiling = 0

def isLayerFull (l : ℕ) : Bool := q.maxLayerSize ≤ (q.layers l).values.length

def maxSize : ℕ := q.maxLayerSize * numLayers

def enable (ls : ℕ) : Except String PartialQueue :=
  if ls = 0 then .error "PartialQueue::enable(...) ls == 0."
  else .ok { q with enabled := true, maxLayerSize := ls }

def disable : PartialQueue := { q with enabled := false, maxLayerSize := 0 }

def clear : PartialQueue :=
  if q.enabled then { q with index := 0, ceiling := ceilingOf (numLayers - 1), layers := fun _ ↦ ⟨0, []⟩ } else q

def findLayer (key : ℕ) : ℕ → ℕ → ℕ
  | 0, idx => idx
  | fuel + 1, idx => if ceilingOf idx ≤ key then findLayer key fuel (idx + 1) else idx

def append (idx value : ℕ) : PartialQueue :=
  let layer := q.layers idx
  let q := { q with layers := update q.layers idx { layer with values := layer.values ++ [value] } }
  if q.isLayerFull idx then { q with ceiling := if 0 < idx then ceilingOf (idx - 1) else 0 } else q

def insert (key : UInt8) (value : ℕ) : Except String (Bool × PartialQueue) :=
  if q.ceiling ≤ key.toNat then .ok (false, q)
  else
    let idx := findLayer key.toNat numLayers 0
    if q.isLayerFull idx then .error "PartialQueue::insert(...) layer already full."
    else .ok (true, { q with index := min q.index idx }.append idx value)

def preparePopFrom : ℕ → ℕ → Bool × ℕ
  | 0, index => (false, index)
  | fuel + 1, index =>
    if (q.layers index).popped = (q.layers index).values.length then
      if q.isLayerFull index || index + 1 = numLayers then (false, index) else preparePopFrom fuel (index + 1)
    else (true, index)

def preparePop : Bool × PartialQueue :=
  let r := q.preparePopFrom numLayers q.index
  (r.1, { q with index := r.2 })

def advance : PartialQueue :=
  { q with
    layers := update q.layers q.index { q.layers q.index with popped := (q.layers q.index).popped + 1 } }

def pop : Except String (ℕ × PartialQueue) :=
  let layer := q.layers q.index
  if numLayers ≤ q.index || layer.values.length ≤ layer.popped then .error "PartialQueue::pop() bad state."
  else .ok (layer.values.getD layer.popped 0, q.advance)

variable {q} {P : ℕ → Prop} {key : UInt8} {value l : ℕ}

/-- What the operations keep of an enabled queue: a layer that is full has lowered the ceiling to its own keys. -/
structure Sound (q : PartialQueue) : Prop where
  enabled : q.enabled = true
  room : 0 < q.maxLayerSize
  index : q.index < numLayers
  popped : ∀ l, (q.layers l).popped ≤ (q.layers l).values.length
  full : ∀ l, q.isLayerFull l = true → q.ceiling ≤ 2 ^ l - 1
  lowered : q.ceiling < 255 → ∃ l < numLayers, q.isLayerFull l = true
  ceiling : q.ceiling ≤ 255

def Holds (P : ℕ → Prop) (q : PartialQueue) : Prop := ∀ l, ∀ v ∈ (q.layers l).values, P v

def Filled : Prop := ∃ l < numLayers, (q.layers l).values ≠ []

def Fresh : Prop := q.index = 0 ∧ ∀ l, (q.layers l).popped = 0

theorem ceilingOf_pred (l : ℕ) : (if 0 < l then ceilingOf (l - 1) else 0) = 2 ^ l - 1 := by
  cases l with
  | zero => rfl
  | succ l => rw [if_pos l.succ_pos, ceilingOf, Nat.add_sub_cancel, pow_succ']

theorem findLayer_spec {k : ℕ} (fuel idx : ℕ) (hle : 2 ^ idx - 1 ≤ k) (hlt : k < ceilingOf (idx + fuel)) :
    findLayer k fuel idx ≤ idx + fuel ∧ 2 ^ findLayer k fuel idx - 1 ≤ k ∧ k < ceilingOf (findLayer k fuel idx) := by
  induction fuel generalizing idx with
  | zero => exact ⟨le_rfl, hle, hlt⟩
  | succ fuel ih =>
    rw [findLayer]
    split_ifs with h
    · have hpow : 2 ^ (idx + 1) - 1 ≤ k := by rwa [pow_succ']
      have hrec := ih (idx + 1) hpow (by rwa [add_right_comm])
      exact ⟨by omega, hrec.2⟩
    · exact ⟨Nat.le_add_right .., hle, by omega⟩

section Clear

variable (h : q.enabled = true)
include h

theorem clear_eq :
    q.clear = { q with index := 0, ceiling := ceilingOf (numLayers - 1), layers := fun _ ↦ ⟨0, []⟩ } :=
  if_pos h

theorem sound_clear (hroom : 0 < q.maxLayerSize) : q.clear.Sound := by
  rw [clear_eq h]
  have hceiling : ceilingOf (numLayers - 1) = 255 := by decide
  refine ⟨h, hroom, zero_lt_succ 7, fun _ ↦ le_rfl, fun l hl ↦ ?_, fun hlt ↦ ?_, hceiling.le⟩
  · exact absurd (of_decide_eq_true hl) (not_le_of_gt hroom)
  · exact absurd hlt hceiling.not_lt

theorem fresh_clear : q.clear.Fresh := by
  rw [clear_eq h]
  exact ⟨rfl, fun _ ↦ rfl⟩

theorem holds_clear : q.clear.Holds P := by
  rw [clear_eq h]
  exact fun _ _ hv ↦ absurd hv not_mem_nil

end Clear

section Insert

theorem Sound.filled_of_ceiling (h : q.Sound) (hlt : q.ceiling < 255) : q.Filled := by
  obtain ⟨l, hl, hfull⟩ := h.lowered hlt
  refine ⟨l, hl, fun hnil ↦ ?_⟩
  have hle := of_decide_eq_true hfull
  rw [hnil] at hle
  exact absurd hle (not_le_of_gt h.room)

theorem layers_append (idx value : ℕ) : (q.append idx value).layers =
      update q.layers idx ⟨(q.layers idx).popped, (q.layers idx).values ++ [value]⟩ := by
  rw [append]
  split <;> rfl

theorem append_kept (idx value : ℕ) :
    (q.append idx value).enabled = q.enabled ∧ (q.append idx value).maxLayerSize = q.maxLayerSize ∧
      (q.append idx value).index = q.index := by
  rw [append]
  split <;> exact ⟨rfl, rfl, rfl⟩

theorem values_append (idx value l : ℕ) :
    ((q.append idx value).layers l).values = (q.layers l).values ++ if l = idx then [value] else [] := by
  rw [layers_append, update_apply]
  split_ifs with h
  · rw [h]
  · rw [append_nil]

theorem popped_append (idx value l : ℕ) : ((q.append idx value).layers l).popped = (q.layers l).popped := by
  rw [layers_append, update_apply]
  split_ifs with h
  · rw [h]
  · rfl

theorem ceiling_append (idx value : ℕ) :
    (q.append idx value).ceiling = q.ceiling ∧ (q.append idx value).isLayerFull idx = false ∨
      (q.append idx value).ceiling = 2 ^ idx - 1 ∧ (q.append idx value).isLayerFull idx = true := by
  rw [append]
  split
  · rename_i hfull
    exact .inr ⟨ceilingOf_pred idx, hfull⟩
  · rename_i hn
    exact .inl ⟨rfl, by simpa using hn⟩

theorem Sound.append (h : q.Sound) {idx : ℕ} (hidx : idx < numLayers) (hle : 2 ^ idx - 1 < q.ceiling) (value : ℕ) :
    (q.append idx value).Sound := by
  obtain ⟨henabled, hroom, hindex⟩ := append_kept idx value
  have hfull (l : ℕ) (hne : l ≠ idx) : (q.append idx value).isLayerFull l = q.isLayerFull l := by
    rw [isLayerFull, isLayerFull, hroom, values_append, if_neg hne, append_nil]
  refine ⟨henabled.trans h.enabled, hroom.symm ▸ h.room, hindex.symm ▸ h.index, fun l ↦ ?_, fun l hl ↦ ?_,
    fun hlt ↦ ?_, ?_⟩
  · rw [popped_append, values_append, length_append]
    exact (h.popped l).trans (Nat.le_add_right ..)
  · rcases ceiling_append idx value with ⟨hc, hnot⟩ | ⟨hc, -⟩
    · rcases eq_or_ne l idx with rfl | hne
      · exact absurd (hnot.symm.trans hl) (by decide)
      · rw [hc]
        exact h.full l (hfull l hne ▸ hl)
    rw [hc]
    rcases eq_or_ne l idx with rfl | hne
    · exact le_rfl
    · exact hle.le.trans (h.full l (hfull l hne ▸ hl))
  · rcases ceiling_append idx value with ⟨hc, -⟩ | ⟨-, hyes⟩
    · obtain ⟨l, hl, hlfull⟩ := h.lowered (hc ▸ hlt)
      have hlle : 2 ^ idx - 1 < 2 ^ l - 1 := hle.trans_le (h.full l hlfull)
      have hne : l ≠ idx := fun heq ↦ absurd hlle (by rw [heq]; exact lt_irrefl _)
      exact ⟨l, hl, (hfull l hne).trans hlfull⟩
    · exact ⟨idx, hidx, hyes⟩
  · rcases ceiling_append idx value with ⟨hc, -⟩ | ⟨hc, -⟩
    · exact hc.le.trans h.ceiling
    · exact hc.le.trans (hle.le.trans h.ceiling)

theorem ensures_insert (h : q.Sound) (key : UInt8) (value : ℕ) :
    Gives (q.insert key value) fun r ↦ r.2.Sound ∧ (q.Fresh → r.2.Fresh) ∧
      (∀ P, q.Holds P → P value → r.2.Holds P) ∧ (q.Filled → r.2.Filled) ∧
      (r.1 = false → r.2.isFull = true → r.2.Filled) ∧ (r.2.Filled ∨ key = 255) := by
  refine .ite (fun hkey ↦ ?_) fun hkey ↦ ?_
  · refine ⟨h, id, fun P hP _ ↦ hP, id, fun _ hfull ↦ ?_, ?_⟩
    · exact h.filled_of_ceiling (by rw [of_decide_eq_true hfull]; decide)
    by_cases hlt : q.ceiling < 255
    · exact .inl (h.filled_of_ceiling hlt)
    have hmax : key.toNat = 255 := by
      have := key.toNat_lt
      omega
    exact .inr (UInt8.toNat_inj.mp hmax)
  · have hmax : key.toNat < ceilingOf (0 + numLayers) := key.toNat_lt.trans (by decide)
    obtain ⟨hidx, hle, -⟩ := findLayer_spec numLayers 0 (zero_le _) hmax
    generalize findLayer key.toNat numLayers 0 = idx at hidx hle
    have hceiling : 2 ^ idx - 1 < q.ceiling := hle.trans_lt (Nat.lt_of_not_le hkey)
    have hlayer : idx < numLayers := by
      rcases hidx.lt_or_eq with hlt | rfl
      · rwa [zero_add] at hlt
      · exact absurd hceiling (Nat.not_lt_of_le (h.ceiling.trans (by decide)))
    refine .ite (fun hfull ↦ ?_) fun _ ↦ ?_
    · exact absurd (h.full idx hfull) (not_le_of_gt hceiling)
    have hmin : ({ q with index := min q.index idx } : PartialQueue).Sound :=
      ⟨h.enabled, h.room, (min_le_left ..).trans_lt h.index, h.popped, h.full, h.lowered, h.ceiling⟩
    have hfilled : (({ q with index := min q.index idx } : PartialQueue).append idx value).Filled :=
      ⟨idx, hlayer, by rw [values_append, if_pos rfl]; exact concat_ne_nil value _⟩
    refine ⟨hmin.append hlayer hceiling value, fun hfresh ↦ ⟨?_, fun l ↦ ?_⟩, fun P hP hvalue l v hv ↦ ?_,
      fun _ ↦ hfilled, nofun, .inl hfilled⟩
    · rw [(append_kept idx value).2.2, hfresh.1, zero_min]
    · rw [popped_append]
      exact hfresh.2 l
    rw [values_append, mem_append] at hv
    rcases hv with hv | hv
    · exact hP l v hv
    split_ifs at hv
    · rwa [mem_singleton.mp hv]
    · exact absurd hv not_mem_nil

end Insert

section Pop

/-- The loop stops at a layer with a value that was not taken, if there is one and no full layer is in its way. -/
theorem preparePopFrom_spec (fuel index : ℕ) (hindex : index < numLayers) :
    (q.preparePopFrom fuel index).2 < numLayers ∧
      ((q.preparePopFrom fuel index).1 = true →
        (q.layers (q.preparePopFrom fuel index).2).popped ≠
          (q.layers (q.preparePopFrom fuel index).2).values.length) := by
  induction fuel generalizing index with
  | zero => exact ⟨hindex, nofun⟩
  | succ fuel ih =>
    rw [preparePopFrom]
    split_ifs with hempty hstop
    · exact ⟨hindex, nofun⟩
    · simp only [Bool.or_eq_true, decide_eq_true_eq, not_or] at hstop
      exact ih (index + 1) (by omega)
    · exact ⟨hindex, fun _ ↦ hempty⟩

theorem preparePopFrom_of_fresh (h : q.Sound) (hpopped : ∀ l, (q.layers l).popped = 0) (fuel index : ℕ)
    (hfuel : numLayers ≤ index + fuel) (hfilled : ∃ l < numLayers, index ≤ l ∧ (q.layers l).values ≠ []) :
    (q.preparePopFrom fuel index).1 = true := by
  induction fuel generalizing index with
  | zero =>
    omega
  | succ fuel ih =>
    obtain ⟨l, hl, hle, hne⟩ := hfilled
    rw [preparePopFrom, hpopped]
    split_ifs with hempty hstop
    · have hnil := eq_nil_of_length_eq_zero hempty.symm
      have hlt : index < l := lt_of_le_of_ne hle fun heq ↦ hne (heq ▸ hnil)
      have hroom := h.room
      simp only [isLayerFull, hnil, length_nil, Bool.or_eq_true, decide_eq_true_eq] at hstop
      omega
    · have hnil := eq_nil_of_length_eq_zero hempty.symm
      have hlt : index < l := lt_of_le_of_ne hle fun heq ↦ hne (heq ▸ hnil)
      exact ih (index + 1) (by omega) ⟨l, hl, hlt, hne⟩
    · rfl

theorem Sound.preparePop (h : q.Sound) : q.preparePop.2.Sound :=
  ⟨h.enabled, h.room, (preparePopFrom_spec numLayers q.index h.index).1, h.popped, h.full, h.lowered, h.ceiling⟩

theorem preparePop_of_fresh (h : q.Sound) (hfresh : q.Fresh) (hfilled : q.Filled) : q.preparePop.1 = true := by
  obtain ⟨l, hl, hne⟩ := hfilled
  refine preparePopFrom_of_fresh h hfresh.2 numLayers q.index (Nat.le_add_left ..) ⟨l, hl, ?_, hne⟩
  rw [hfresh.1]
  exact zero_le l

theorem values_advance (l : ℕ) : (q.advance.layers l).values = (q.layers l).values := by
  rw [advance]
  rcases eq_or_ne l q.index with rfl | hne
  · simp
  · simp [hne]

section

variable (h : q.Sound) (hlt : (q.layers q.index).popped < (q.layers q.index).values.length)
include h hlt

theorem Sound.advance : q.advance.Sound := by
  have hfull (l : ℕ) : q.advance.isLayerFull l = q.isLayerFull l := by
    rw [isLayerFull, isLayerFull, values_advance]
    rfl
  refine ⟨h.enabled, h.room, h.index, fun l ↦ ?_, fun l hl ↦ h.full l (hfull l ▸ hl), fun hlow ↦ ?_, h.ceiling⟩
  · rw [values_advance, PartialQueue.advance]
    rcases eq_or_ne l q.index with rfl | hne
    · simpa using succ_le_of_lt hlt
    · simpa [hne] using h.popped l
  · obtain ⟨l, hl, hyes⟩ := h.lowered hlow
    exact ⟨l, hl, (hfull l).trans hyes⟩

theorem ensures_pop : Gives q.pop fun r ↦ r.2.Sound ∧ ∀ P, q.Holds P → P r.1 ∧ r.2.Holds P := by
  have hmem : (q.layers q.index).values.getD (q.layers q.index).popped 0 ∈ (q.layers q.index).values := by
    rw [getD_eq_getElem _ _ hlt]
    exact getElem_mem hlt
  refine .ite (fun hbad ↦ ?_) fun _ ↦ ?_
  · simp only [Bool.or_eq_true, decide_eq_true_eq] at hbad
    rcases hbad with hbad | hbad
    · exact absurd h.index (Nat.not_lt_of_le hbad)
    · exact absurd hlt (Nat.not_lt_of_le hbad)
  · refine ⟨h.advance hlt, fun P hP ↦ ⟨hP _ _ hmem, fun l v hv ↦ hP l v ?_⟩⟩
    rwa [values_advance] at hv

end

theorem ensures_pop_preparePop (h : q.Sound) (hprepared : q.preparePop.1 = true) :
    Gives q.preparePop.2.pop fun r ↦ r.2.Sound ∧ ∀ P, q.Holds P → P r.1 ∧ r.2.Holds P := by
  obtain ⟨-, hne⟩ := preparePopFrom_spec numLayers q.index h.index
  exact ensures_pop h.preparePop (lt_of_le_of_ne (h.popped _) (hne hprepared))

def remaining : ℕ :=
  ((List.range numLayers).map fun l ↦ (q.layers l).values.length - (q.layers l).popped).sum

end Pop

end PartialQueue

end LibTorrent
