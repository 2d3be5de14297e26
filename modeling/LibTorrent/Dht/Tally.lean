import LibTorrent.Dht.Table

namespace LibTorrent

open DhtBucket Function Lib.Outcome List Option Quality UInt32

namespace DhtRouter

variable {new : Option HashString} {s t : DhtRouter} {id : HashString} {b : ℕ} {f : Quality → Bool}
  {l : List HashString} {n : DhtNode}

/-- The events as the server passes them on: it refuses a message with the router's own id before the router sees it. -/
def receive : Event → DhtRouter → Except DhtFault DhtRouter
  | .replied id sameAddress now, s =>
    if id = s.id then step (.inactive id sameAddress now) s else step (.replied id sameAddress now) s
  | .queried id sameAddress now, s => if id = s.id then .ok s else step (.queried id sameAddress now) s
  | e, s => step e s

def qualityOf (s : DhtRouter) (id : HashString) : Option Quality := (s.findNode id).map DhtNode.quality

def tally (f : Quality → Bool) (s : DhtRouter) (l : List HashString) : UInt32 :=
  ofNat (l.countP fun id ↦ (s.qualityOf id).any f)

structure Right (s : DhtRouter) (B : DhtBucket) : Prop where
  good : B.good = s.tally isGood B.nodes
  bad : B.bad = s.tally isBad B.nodes

def Apart (o : Option Quality) : Prop := ∀ q ∈ o, ¬ (q.isGood = true ∧ q.isBad = true)

structure Kept (s : DhtRouter) : Prop where
  right : ∀ b ∈ s.refs, s.Right (s.buckets b)
  apart : ∀ id, Apart (s.qualityOf id)

/-- The counters of the buckets are those of their nodes, no node is good and bad, and a bucket has space if it has less
than eight nodes or a bad one. -/
structure Tallied (s : DhtRouter) : Prop extends Kept s where
  space : ∀ b ∈ s.refs, (s.buckets b).hasSpace = true ↔
    (s.buckets b).nodes.length < 8 ∨ ∃ id ∈ (s.buckets b).nodes, (s.qualityOf id).any isBad = true

/-- The failures of a node that is inactive can still be counted, and no bad node was seen in the last fifteen minutes when
the nodes are updated. -/
def Safe (e : Event) (s : DhtRouter) : Prop :=
  match e with
  | .replied id true _ => id = s.id → ∀ q ∈ s.qualityOf id, q.recentlyInactive + 1 ≠ 0
  | .inactive id true _ => ∀ q ∈ s.qualityOf id, q.recentlyInactive + 1 ≠ 0
  | .timeout now => ∀ id, ∀ q ∈ s.qualityOf id, q.isBad = true → ¬ q.age now < 15 * 60
  | _ => True

section Tallies

theorem tally_congr (hl : ∀ y ∈ l, t.qualityOf y = s.qualityOf y) : t.tally f l = s.tally f l :=
  congrArg ofNat (countP_congr fun y hy ↦ by rw [hl y hy])

theorem tally_concat : s.tally f (l ++ [id]) = if (s.qualityOf id).any f then s.tally f l + 1 else s.tally f l := by
  rw [tally, countP_append, countP_singleton]
  split_ifs
  · exact ofNat_add ..
  · rfl

theorem tally_erase (hid : id ∈ l) :
    s.tally f l = if (s.qualityOf id).any f then s.tally f (l.erase id) + 1 else s.tally f (l.erase id) := by
  rw [← tally_concat, tally, tally, ((perm_cons_erase hid).trans (perm_append_singleton id _).symm).countP_eq]

def counts (B : DhtBucket) : List HashString × UInt32 × UInt32 := (B.nodes, B.good, B.bad)

theorem Right.congr {B C : DhtBucket} (h : s.Right B) (hl : ∀ y ∈ B.nodes, t.qualityOf y = s.qualityOf y)
    (hC : counts C = counts B) : t.Right C := by
  obtain ⟨hnodes, hgood, hbad⟩ : C.nodes = B.nodes ∧ C.good = B.good ∧ C.bad = B.bad := by simpa [counts] using hC
  refine ⟨?_, ?_⟩
  · rw [hgood, hnodes, tally_congr hl, h.good]
  · rw [hbad, hnodes, tally_congr hl, h.bad]

theorem Kept.tallied (hk : Kept s) (h : Sound new s) : Tallied s := by
  refine ⟨hk, fun b hb ↦ ?_⟩
  have hle : _ ≤ (s.buckets b).nodes.length := countP_le_length (p := fun id ↦ (s.qualityOf id).any isBad)
  have hlt := Nat.lt_of_le_of_lt (hle.trans (h.filed.small b hb)) (by decide : numNodes < 2 ^ 32)
  simp only [hasSpace, Bool.or_eq_true, Bool.not_eq_true', decide_eq_true_eq]
  refine or_congr (decide_eq_false_iff_not.trans Nat.not_le) ?_
  rw [lt_iff_toNat_lt, (hk.right b hb).bad, tally, toNat_ofNat_of_lt' hlt]
  exact countP_pos_iff

theorem findNode_map {F : DhtNode → DhtNode} (hF : ∀ n, (F n).id = n.id) (ht : t.nodes = s.nodes.map F)
    (id : HashString) : t.findNode id = (s.findNode id).map F := by
  rw [findNode, ht, find?_map]
  simp only [comp_def, hF, findNode]

theorem qualityOf_map {F : DhtNode → DhtNode} (hF : ∀ n, (F n).id = n.id ∧ (F n).quality = n.quality)
    (ht : t.nodes = s.nodes.map F) (id : HashString) : t.qualityOf id = s.qualityOf id := by
  rw [qualityOf, findNode_map (fun n ↦ (hF n).1) ht, Option.map_map]
  exact congrArg (Option.map · _) (funext fun n ↦ (hF n).2)

theorem qualityOf_modifyNode (s : DhtRouter) (id : HashString) (g : Quality → Quality) (y : HashString) :
    (s.modifyNode id fun n ↦ { n with quality := g n.quality }).qualityOf y =
      if y = id then (s.qualityOf y).map g else s.qualityOf y := by
  rw [qualityOf, findNode_map
    (fun n ↦ by split_ifs <;> rfl) rfl, qualityOf]
  cases hn : s.findNode y with
  | none => simp
  | some n => by_cases hy : y = id <;> simp [(findNode_some hn).1, hy]

theorem qualityOf_of_find (hn : s.findNode id = some n) : s.qualityOf id = some n.quality := by
  rw [qualityOf, hn]
  rfl

end Tallies

section Places

theorem Filed.not_mem (h : Filed new s) (hn : s.findNode id = some n) (hb : b ∈ s.refs) (hne : n.bucket ≠ some b) :
    id ∉ (s.buckets b).nodes := by
  intro hid
  obtain ⟨m, hm, hbucket⟩ := findNode_of_mem h.ids (h.held b hb id hid).2
  exact hne (mem_unique hn hm ▸ hbucket)

theorem Filed.mem (h : Filed new s) (hn : s.findNode id = some n) (hb : n.bucket = some b) :
    b ∈ s.refs ∧ id ∈ (s.buckets b).nodes := by
  have hplaced := h.placed _ (findNode_some hn).2
  split_ifs at hplaced
  · cases hb.symm.trans hplaced
  obtain ⟨c, hc, hnc, hid⟩ := hplaced
  obtain rfl := mem_unique hb hnc
  exact ⟨hc, hid⟩

/-- A change that only concerns one node, and the bucket that it is in. -/
structure Alters (id : HashString) (n : DhtNode) (s t : DhtRouter) : Prop where
  refs : t.refs = s.refs
  other : ∀ y, y ≠ id → t.qualityOf y = s.qualityOf y
  same : ∀ x, n.bucket ≠ some x → t.buckets x = s.buckets x

theorem Alters.kept (ha : Alters id n s t) (h : Sound new s) (hk : Kept s) (hn : s.findNode id = some n)
    (hq : Apart (t.qualityOf id)) (hright : ∀ b, n.bucket = some b → t.Right (t.buckets b)) : Kept t := by
  refine ⟨fun x hx ↦ ?_, fun y ↦ ?_⟩
  · rw [ha.refs] at hx
    by_cases hxb : n.bucket = some x
    · exact hright x hxb
    · refine (hk.right x hx).congr (fun y hy ↦ ha.other y fun he ↦ ?_) (congrArg counts (ha.same x hxb))
      exact h.filed.not_mem hn hx hxb (he ▸ hy)
  by_cases hy : y = id
  · exact hy ▸ hq
  · rw [ha.other y hy]
    exact hk.apart y

/-- What the counters of the node's bucket have to be: the other nodes count as before, and the node as it is now. -/
theorem Alters.kept_iff (ha : Alters id n s t) (h : Sound new s) (hk : Kept s) (hn : s.findNode id = some n)
    (hb : n.bucket = some b) (hnodes : (t.buckets b).nodes = (s.buckets b).nodes ∨
      (t.buckets b).nodes = (s.buckets b).nodes.erase id ∧ t.qualityOf id = none) :
    ∃ r r', (s.buckets b).good = (if n.quality.isGood then r + 1 else r) ∧
      (s.buckets b).bad = (if n.quality.isBad then r' + 1 else r') ∧
      (Kept t ↔ (t.buckets b).good = (if (t.qualityOf id).any isGood then r + 1 else r) ∧
        (t.buckets b).bad = (if (t.qualityOf id).any isBad then r' + 1 else r') ∧ Apart (t.qualityOf id)) := by
  obtain ⟨href, hmem⟩ := h.filed.mem hn hb
  have htally (f : Quality → Bool) : t.tally f (t.buckets b).nodes = if (t.qualityOf id).any f then
      s.tally f ((s.buckets b).nodes.erase id) + 1 else s.tally f ((s.buckets b).nodes.erase id) := by
    have hrest : t.tally f ((s.buckets b).nodes.erase id) = s.tally f ((s.buckets b).nodes.erase id) :=
      tally_congr fun y hy ↦ ha.other y ((h.filed.nodup b href).mem_erase_iff.mp hy).1
    rw [← hrest]
    rcases hnodes with hnodes | ⟨hnodes, hnone⟩
    · rw [hnodes, tally_erase hmem]
    · rw [hnodes, hnone]
      rfl
  have hgood := (hk.right b href).good.trans (tally_erase hmem)
  have hbad := (hk.right b href).bad.trans (tally_erase hmem)
  rw [qualityOf_of_find hn, any_some] at hgood hbad
  refine ⟨_, _, hgood, hbad, fun hkept ↦ ?_, fun ⟨hgood', hbad', hq⟩ ↦ ha.kept h hk hn hq fun x hx ↦ ?_⟩
  · have hright := hkept.right b (ha.refs ▸ href)
    exact ⟨hright.good.trans (htally _), hright.bad.trans (htally _), hkept.apart id⟩
  · obtain rfl := mem_unique hb hx
    exact ⟨hgood'.trans (htally _).symm, hbad'.trans (htally _).symm⟩

theorem kept_requalify (h : Sound none s) (hk : Kept s) (hn : s.findNode id = some n) (hb : n.bucket = some b)
    {F : DhtBucket → DhtBucket} (hnodes : (F (s.buckets b)).nodes = (s.buckets b).nodes) (g : Quality → Quality) :
    ∃ r r', (s.buckets b).good = (if n.quality.isGood then r + 1 else r) ∧
      (s.buckets b).bad = (if n.quality.isBad then r' + 1 else r') ∧
      (Kept ((s.modifyBucket b F).modifyNode id fun n ↦ { n with quality := g n.quality }) ↔
        (F (s.buckets b)).good = (if (g n.quality).isGood then r + 1 else r) ∧
          (F (s.buckets b)).bad = (if (g n.quality).isBad then r' + 1 else r') ∧ Apart (some (g n.quality))) := by
  have hother := qualityOf_modifyNode (s.modifyBucket b F) id g
  have hnew := (hother id).trans (if_pos rfl)
  rw [show (s.modifyBucket b F).qualityOf id = _ from qualityOf_of_find hn, map_some] at hnew
  have hbucket : ((s.modifyBucket b F).modifyNode id fun n ↦ { n with quality := g n.quality }).buckets b =
      F (s.buckets b) := update_self ..
  have ha : Alters id n s ((s.modifyBucket b F).modifyNode id fun n ↦ { n with quality := g n.quality }) := by
    refine ⟨rfl, fun y hy ↦ (hother y).trans (if_neg hy), fun x hx ↦ update_of_ne ?_ _ _⟩
    rintro rfl
    exact hx hb
  simpa only [hnew, hbucket, any_some] using ha.kept_iff h hk hn hb (.inl (hbucket ▸ hnodes))

theorem findNode_filter (ht : t.nodes = s.nodes.filter fun n ↦ n.id ≠ id) (y : HashString) :
    t.findNode y = if y = id then none else s.findNode y := by
  rw [findNode, ht, find?_filter]
  split_ifs with hy
  · refine find?_eq_none.mpr fun n _ ↦ ?_
    simp [hy]
  · refine congrArg (find? · s.nodes) (funext fun n ↦ ?_)
    by_cases hn : n.id = y <;> simp [hn, hy]

theorem kept_deleteNode (h : Sound new s) (hk : Kept s) : Yields (s.deleteNode id) Kept := by
  rw [deleteNode]
  cases hn : s.findNode id with
  | none => exact not_false
  | some n =>
    have hgone {t : DhtRouter} (ht : t.nodes = s.nodes.filter fun n ↦ n.id ≠ id) : t.qualityOf id = none := by
      rw [qualityOf, findNode_filter ht, if_pos rfl, map_none]
    have hother {t : DhtRouter} (ht : t.nodes = s.nodes.filter fun n ↦ n.id ≠ id) (y : HashString) (hy : y ≠ id) :
        t.qualityOf y = s.qualityOf y := by
      rw [qualityOf, findNode_filter ht, if_neg hy, qualityOf]
    have hnone : Apart none := (fun _ h ↦ by cases h)
    dsimp only
    cases hb : n.bucket with
    | none =>
      refine Alters.kept (s := s) ⟨rfl, hother rfl, fun _ _ ↦ rfl⟩ h hk hn ?_ ?_
      · rw [hgone rfl]
        exact hnone
      · exact fun b hnb ↦ absurd (hb.symm.trans hnb) (by simp)
    | some b =>
      dsimp only [removeNode]
      rw [if_neg (not_not_intro (h.filed.mem hn hb).2)]
      refine .ok ?_
      generalize ht : ({ s.modifyBucket b _ with nodes := _ } : DhtRouter) = t
      have hbucket := congrArg (fun t ↦ t.buckets b) ht
      simp only [modifyBucket, update_self] at hbucket
      have hfilter : t.nodes = s.nodes.filter fun n ↦ n.id ≠ id := ht ▸ rfl
      have ha : Alters id n s t := by
        refine ⟨ht ▸ rfl, hother hfilter, fun x hx ↦ ht ▸ update_of_ne ?_ _ _⟩
        rintro rfl
        exact hx hb
      obtain ⟨r, r', hr, hr', hiff⟩ := ha.kept_iff h hk hn hb (.inr ⟨hbucket ▸ rfl, hgone hfilter⟩)
      have hapart := hk.apart id _ (qualityOf_of_find hn)
      rw [hiff, hgone hfilter, ← hbucket]
      refine ⟨?_, ?_, hnone⟩
      · split_ifs <;> simp_all
      · split_ifs <;> simp_all

end Places

section Counting

theorem right_count {x : ℕ} (h : x = b ∨ s.Right (s.buckets x)) : (s.count b).Right ((s.count b).buckets x) := by
  by_cases hx : x = b
  · subst hx
    simp only [count, modifyBucket, update_self]
    constructor
    all_goals
      simp only [tally, qualityOf, Option.any_map]
      rfl
  · exact (h.resolve_left hx).congr (fun _ _ ↦ rfl) (congrArg counts (update_of_ne hx _ _))

theorem foldl_count (l : List (HashString × ℕ)) (s : DhtRouter) :
    (l.foldl (fun t p ↦ t.count p.2) s).nodes = s.nodes ∧ (l.foldl (fun t p ↦ t.count p.2) s).refs = s.refs ∧
      ∀ x, x ∈ l.map Prod.snd ∨ s.Right (s.buckets x) →
        (l.foldl (fun t p ↦ t.count p.2) s).Right ((l.foldl (fun t p ↦ t.count p.2) s).buckets x) := by
  induction l generalizing s with
  | nil => exact ⟨rfl, rfl, fun x hx ↦ hx.resolve_left not_mem_nil⟩
  | cons p l ih =>
    obtain ⟨hnodes, hrefs, hright⟩ := ih (s.count p.2)
    refine ⟨hnodes, hrefs, fun x hx ↦ hright x ?_⟩
    rcases hx with hx | hx
    · exact (mem_cons.mp hx).elim (fun he ↦ .inr (right_count (.inl he))) .inl
    · exact .inr (right_count (.inr hx))

theorem counts_link (b o x : ℕ) (id : HashString) (s : DhtRouter) :
    counts ((s.link b o id).buckets x) = counts (s.buckets x) := by
  have hset (s : DhtRouter) (b : ℕ) (f g : DhtBucket → Option ℕ) :
      counts ((s.modifyBucket b fun B ↦ { B with parent := f B, child := g B }).buckets x) = counts (s.buckets x) :=
    field_update counts (by rfl) x
  rw [link]
  split
  · exact (hset _ o _ _).trans (hset s b _ _)
  refine ((hset _ o _ _).trans (hset _ b _ _)).trans ?_
  split
  · exact (hset _ o _ _).trans (hset s _ _ _)
  · rfl

theorem right_split (b : ℕ) (s : DhtRouter) {x : ℕ} (hx : x = b ∨ x = s.next ∨ s.Right (s.buckets x)) :
    (s.split b).Right ((s.split b).buckets x) ∧ ∀ y, (s.split b).qualityOf y = s.qualityOf y := by
  have hquality {t : DhtRouter} (ht : t.nodes = (s.halved b).nodes) (y : HashString) : t.qualityOf y = s.qualityOf y :=
    qualityOf_map (fun n ↦ by split_ifs <;> exact ⟨rfl, rfl⟩) ht y
  have hsplit := hquality (t := s.split b) (regions_link ..).known
  refine ⟨?_, hsplit⟩
  have hcount : (((s.halved b).count s.next).count b).Right ((((s.halved b).count s.next).count b).buckets x) := by
    by_cases hxb : x = b
    · exact right_count (.inl hxb)
    by_cases hxn : x = s.next
    · exact right_count (.inr (right_count (.inl hxn)))
    refine right_count (.inr (right_count (.inr ?_)))
    exact ((hx.resolve_left hxb).resolve_left hxn).congr (fun y _ ↦ hquality rfl y) (congrArg counts (halved_of_ne hxb hxn))
  exact hcount.congr (fun y _ ↦ (hsplit y).trans (hquality rfl y).symm) (counts_link ..)

theorem carried_kept : Carried id Kept := by
  refine ⟨fun h hk ↦ kept_deleteNode h hk, fun {s r b} hr hrefs hk ↦ ?_, fun {s n b} hn hk ↦ ?_⟩
  · obtain ⟨hbuckets, hnodes⟩ := splitBucket_ok hr
    have hquality (y : HashString) : r.2.qualityOf y = (s.split b).qualityOf y := by
      rw [qualityOf, findNode, hnodes, qualityOf, findNode]
    refine ⟨fun x hx ↦ ?_, fun y ↦ ?_⟩
    · rw [hbuckets]
      exact (right_split b s (.inr ((hrefs x hx).imp_right (hk.right x)))).1.congr (fun y _ ↦ hquality y) rfl
    · rw [hquality, (right_split b s (.inl rfl)).2]
      exact hk.apart y
  · have hquality := qualityOf_map (s := s) (t := (s.modifyBucket b fun B ↦ B.addNode id n.quality).modifyNode id
      fun n ↦ { n with bucket := some b }) (fun n ↦ by split_ifs <;> exact ⟨rfl, rfl⟩) rfl
    refine ⟨fun x hx ↦ ?_, fun y ↦ hquality y ▸ hk.apart y⟩
    have hright := hk.right x hx
    by_cases hxb : x = b
    · subst hxb
      have hapart := hk.apart id _ (qualityOf_of_find hn)
      have htally (f : Quality → Bool) := (tally_congr (f := f) (l := (s.buckets x).nodes ++ [id]) fun y _ ↦ hquality y).trans
        tally_concat
      simp only [qualityOf_of_find hn, any_some, modifyNode, modifyBucket, update_self] at htally ⊢
      refine ⟨Eq.trans ?_ (htally _).symm, Eq.trans ?_ (htally _).symm⟩
      · rw [← hright.good]
        rfl
      rw [← hright.bad]
      simp only [DhtBucket.addNode]
      split_ifs <;> simp_all
    · exact hright.congr (fun y _ ↦ hquality y) (congrArg counts (update_of_ne hxb _ _))

end Counting

section Events

variable {now : UInt32}

theorem modifyBucket_self (b : ℕ) (s : DhtRouter) : s.modifyBucket b (fun B ↦ B) = s := by
  rw [modifyBucket, update_eq_self]

theorem Sound.find (h : Sound none s) (hn : s.findNode id = some n) : ∃ b, n.bucket = some b := by
  obtain ⟨b, -, hb, -⟩ := h.filed.placed _ (findNode_some hn).2
  exact ⟨b, hb⟩

theorem apart_some {q : Quality} (h : ¬ (q.isGood = true ∧ q.isBad = true)) : Apart (some q) := by
  rintro _ ⟨⟩
  exact h

theorem kept_setGood (h : Sound none s) (hk : Kept s) : Kept (s.setGood id now) := by
  rw [setGood]
  cases hn : s.findNode id with
  | none => exact hk
  | some n =>
    obtain ⟨b, hb⟩ := h.find hn
    have hnew : isBad ⟨now, true, 0⟩ = false := rfl
    have hapart : Apart (some ⟨now, true, 0⟩) := apart_some (by simp [hnew])
    simp only [hb]
    split_ifs with hgood
    · obtain ⟨r, r', hr, hr', hiff⟩ := kept_requalify (F := fun B ↦ B) h hk hn hb rfl fun _ ↦ ⟨now, true, 0⟩
      rw [modifyBucket_self] at hiff
      rw [if_pos hgood] at hr
      rw [if_neg fun hbad ↦ hk.apart id _ (qualityOf_of_find hn) ⟨hgood, hbad⟩] at hr'
      exact hiff.mpr ⟨hr, hr', hapart⟩
    obtain ⟨r, r', hr, hr', hiff⟩ :=
      kept_requalify (F := nodeNowGood n.quality.isBad) h hk hn hb rfl fun _ ↦ ⟨now, true, 0⟩
    rw [if_neg hgood] at hr
    refine hiff.mpr ⟨congrArg (· + 1) hr, ?_, hapart⟩
    simp only [nodeNowGood, hr', hnew]
    cases n.quality.isBad <;> simp

theorem kept_setInactive (h : Sound none s) (hk : Kept s) :
    Kept (s.setInactive id) ↔ ∀ q ∈ s.qualityOf id, q.recentlyInactive + 1 ≠ 0 := by
  rw [setInactive]
  cases hn : s.findNode id with
  | none =>
    refine iff_of_true hk ?_
    rw [qualityOf, hn]
    simp
  | some n =>
    obtain ⟨b, hb⟩ := h.find hn
    have hapart := hk.apart id _ (qualityOf_of_find hn)
    rw [qualityOf_of_find hn]
    simp only [hb, mem_some_iff, forall_eq']
    have hlt := n.quality.recentlyInactive.toNat_lt
    have hbad : n.quality.isBad = decide (5 ≤ n.quality.recentlyInactive.toNat) := rfl
    have hsucc : isBad { n.quality with recentlyInactive := n.quality.recentlyInactive + 1 } =
        decide (5 ≤ (n.quality.recentlyInactive.toNat + 1) % 2 ^ 32) := rfl
    have heq (k : ℕ) (hk : k < 2 ^ 32) : n.quality.recentlyInactive + 1 = ofNat k ↔
        (n.quality.recentlyInactive.toNat + 1) % 2 ^ 32 = k := by
      rw [← UInt32.toNat_inj, UInt32.toNat_add, UInt32.toNat_ofNat_of_lt' hk]
      rfl
    have hzero := heq 0 (by decide)
    have hfive := heq 5 (by decide)
    split_ifs with hc hbad'
    · rw [hbad, decide_eq_true_eq] at hbad'
      have := hfive.mp hc
      omega
    · obtain ⟨r, r', hr, hr', hiff⟩ := kept_requalify (F := nodeNowBad n.quality.isGood) h hk hn hb rfl
        fun q ↦ { q with recentlyInactive := 5, recentlyActive := false }
      rw [if_neg hbad'] at hr'
      refine iff_of_true (hiff.mpr ⟨?_, congrArg (· + 1) hr', apart_some (by simp [isGood])⟩) (by rw [hc]; decide)
      simp only [nodeNowBad, hr]
      cases n.quality.isGood <;> simp [isGood]
    obtain ⟨r, r', hr, hr', hiff⟩ := kept_requalify (F := fun B ↦ B) h hk hn hb rfl
      fun q ↦ { q with recentlyInactive := q.recentlyInactive + 1 }
    rw [modifyBucket_self] at hiff
    refine hiff.trans ?_
    rw [hsucc]
    have hne := mt hfive.mpr hc
    by_cases hz : (n.quality.recentlyInactive.toNat + 1) % 2 ^ 32 = 0
    · refine iff_of_false (fun hno ↦ ?_) (not_not_intro (hzero.mpr hz))
      rw [hbad, if_pos (decide_eq_true (by omega)), hno.2.1, hz] at hr'
      simp at hr'
    have hsame : decide (5 ≤ (n.quality.recentlyInactive.toNat + 1) % 2 ^ 32) = n.quality.isBad := by
      rw [hbad, decide_eq_decide]
      omega
    rw [hsame]
    exact iff_of_true ⟨hr, hr', apart_some (by rw [hsucc, hsame]; exact hapart)⟩ fun h0 ↦ hz (hzero.mp h0)

theorem kept_receiveTimeout (s : DhtRouter) (now : UInt32) : Yields (s.receiveTimeout now) fun t ↦
    Kept t ↔ ∀ id, ∀ q ∈ s.qualityOf id, q.isBad = true → ¬ q.age now < 15 * 60 := by
  refine .either not_false (.ok ?_)
  obtain ⟨hnodes, hrefs, hright⟩ := foldl_count s.routingTable
    { s with nodes := s.nodes.map fun n ↦ { n with quality := n.quality.update now } }
  have hfind := findNode_map (F := fun n ↦ { n with quality := n.quality.update now }) (fun _ ↦ rfl) hnodes
  constructor
  · intro hk id q hq hbad hage
    obtain ⟨n, hn, rfl⟩ := map_eq_some_iff.mp hq
    refine hk.apart id (n.quality.update now) ?_ ⟨decide_eq_true hage, hbad⟩
    rw [qualityOf, hfind, hn]
    rfl
  intro hall
  refine ⟨fun b hb ↦ hright b (.inl (by rw [hrefs] at hb; exact hb)), fun id q hq ↦ ?_⟩
  rw [qualityOf, hfind, Option.map_map] at hq
  obtain ⟨n, hn, rfl⟩ := map_eq_some_iff.mp hq
  rintro ⟨hgood, hbad⟩
  exact hall id n.quality (qualityOf_of_find hn) hbad (of_decide_eq_true hgood)

theorem kept_addNode (h : Sound none s) (hk : Kept s) (q : Quality) (hq : q.isBad = false) : Kept (s.addNode id q) := by
  have hfind (y : HashString) : (s.addNode id q).qualityOf y =
      (s.qualityOf y).or (if id = y then some q else none) := by
    rw [qualityOf, findNode, addNode, find?_append, qualityOf, findNode]
    by_cases hy : id = y <;> cases s.nodes.find? (fun n ↦ n.id = y) <;> simp [hy]
  refine ⟨fun b hb ↦ (hk.right b hb).congr (fun y hy ↦ ?_) rfl, fun y p hp ↦ ?_⟩
  · obtain ⟨n, hn, -⟩ := findNode_of_mem h.filed.ids (h.filed.held b hb y hy).2
    rw [hfind, qualityOf_of_find hn]
    rfl
  rw [hfind, mem_def, or_eq_some_iff] at hp
  rcases hp with hp | ⟨-, hp⟩
  · exact hk.apart y p hp
  split_ifs at hp
  cases hp
  simp [hq]

end Events

section Run

theorem kept_nodeInactive (h : Sound none s) (hk : Kept s) (sameAddress : Bool) (now : UInt32) :
    Yields (s.nodeInactive id sameAddress now) fun t ↦
      Kept t ↔ (sameAddress = true → ∀ q ∈ s.qualityOf id, q.recentlyInactive + 1 ≠ 0) := by
  have ht : Sound none (s.setInactive id) := h.congr (bare_setInactive ..)
  refine .ite (fun hno ↦ ?_) fun hyes ↦ .ite (fun hold ↦ ?_) fun _ ↦ ?_
  · refine iff_of_true hk fun hsame ↦ ?_
    simp only [hsame, Bool.not_true, Bool.or_false, isNone_iff_eq_none] at hno
    rw [qualityOf, hno]
    nofun
  · have hsafe : ∀ q ∈ s.qualityOf id, q.recentlyInactive + 1 ≠ 0 := by
      intro q hq hzero
      obtain ⟨n, hn, rfl⟩ := map_eq_some_iff.mp hq
      rw [setInactive, hn] at hold
      dsimp only at hold
      rw [if_neg (by rw [hzero]; decide), findNode_map
        (fun m ↦ by split_ifs <;> rfl) rfl, hn] at hold
      simp [(findNode_some hn).1, isBad, hzero] at hold
    exact (kept_deleteNode ht ((kept_setInactive h hk).mpr hsafe)).mono fun t ht ↦ iff_of_true ht fun _ ↦ hsafe
  · simp only [Bool.or_eq_true, Bool.not_eq_true', not_or, Bool.not_eq_false] at hyes
    exact (kept_setInactive h hk).trans ⟨fun hall _ ↦ hall, fun hall ↦ hall hyes.2⟩

theorem kept_nodeReplied (h : Sound none s) (hk : Kept s) (hid : id ≠ s.id) (sameAddress : Bool) (now : UInt32) :
    Yields (s.nodeReplied id sameAddress now) Kept := by
  rw [nodeReplied]
  split
  · refine .ok ?_
    split_ifs
    · exact kept_setGood h hk
    · exact hk
  rename_i hnone
  rw [if_neg hid]
  refine (yields_true _).bind fun wanted _ ↦ .either hk ?_
  have hnew := h.newNode (fun p hp ↦ findNode_none hnone hp) ⟨0, false, 0⟩
  refine ((ensures_addNodeToBucket carried_kept hnew (kept_addNode h hk _ rfl)).both (yields_true _)).bind
    fun r hr ↦ .ok ?_
  split_ifs
  · exact kept_setGood hr.1.1 hr.1.2
  · exact hr.1.2

theorem step_kept (e : Event) (h : Sound none s) (hk : Kept s) : Yields (receive e s) fun t ↦ Kept t ↔ Safe e s := by
  cases e with
  | replied id sameAddress now =>
    refine .ite (fun hid ↦ ?_) fun hid ↦ ?_
    · refine (kept_nodeInactive h hk sameAddress now).mono fun t ht ↦ ht.trans ?_
      cases sameAddress <;> simp [Safe, hid]
    · refine (kept_nodeReplied h hk hid sameAddress now).mono fun t ht ↦ iff_of_true ht ?_
      cases sameAddress <;> simp [Safe, hid]
  | queried id sameAddress now =>
    refine .ite (fun _ ↦ iff_of_true hk trivial) fun hid ↦ .ok (iff_of_true ?_ trivial)
    rw [nodeQueried]
    split
    · split_ifs
      · exact kept_setGood h hk
      · exact hk
    · simpa [hid] using hk
  | inactive id sameAddress now =>
    refine (kept_nodeInactive h hk sameAddress now).mono fun t ht ↦ ht.trans ?_
    cases sameAddress <;> simp [Safe]
  | invalid id => exact .either (iff_of_true hk trivial) ((kept_deleteNode h hk).mono fun t ht ↦ iff_of_true ht trivial)
  | timeout now => exact kept_receiveTimeout s now

theorem sound_receive (e : Event) (h : Sound none s) : Ensures (· ≠ noCandidate) (receive e s) (Sound none) := by
  cases e with
  | replied => exact .either (ensures_step _ h) (ensures_step _ h)
  | queried => exact .either h (ensures_step _ h)
  | inactive => exact ensures_step (.inactive ..) h
  | invalid => exact ensures_step (.invalid _) h
  | timeout => exact ensures_step (.timeout _) h

def Filling (cache : List (HashString × UInt32)) (s : DhtRouter) : Prop := Loading cache s ∧ Kept s

theorem yields_load (now : UInt32) (node : HashString × UInt32) (cache : List (HashString × UInt32))
    (h : Filling (node :: cache) s) : Yields (load now node s) (Filling cache) := by
  obtain ⟨hl, hk⟩ := h
  have hnew := hl.1.newNode hl.unknown (update now ⟨node.2, false, 0⟩)
  have hkept : Ensures (· ≠ noCandidate) (load now node s) Kept :=
    (ensures_addNodeToBucket carried_kept hnew (kept_addNode hl.1 hk _ rfl)).bind fun r hr ↦ hr.2
  exact ((ensures_load now node cache hl).both (hkept.both (yields_true _))).mono fun t ht ↦ ⟨ht.1, ht.2.1⟩

theorem run_tallied_iff (id : HashString) (now : UInt32) (cache : Cache) (events : List Event) :
    Yields (forEach (load now) cache.entries (fresh id)) fun s ↦
      ((∀ k, k <+: events → Yields (forEach receive k s) Tallied) ↔
        Along receive (fun e s ↦ Yields (receive e s) fun _ ↦ Safe e s) events s) := by
  have hfresh : Kept (fresh id) := ⟨fun _ _ ↦ ⟨rfl, rfl⟩, nofun⟩
  have hload : Yields (forEach (load now) cache.entries (fresh id)) (Filling []) :=
    ensures_forEach (fun node cache s h ↦ yields_load now node cache h) cache.entries
      ⟨⟨fresh_sound id, cache.nodup, fun _ _ ↦ not_mem_nil⟩, hfresh⟩
  refine hload.mono fun s ⟨hl, hk⟩ ↦ ?_
  refine forall_prefix_iff_along (fun e s (h : Sound none s) ht ↦ ?_) events hl.1 (hk.tallied hl.1)
  refine ((sound_receive e h).both (step_kept e h ht.toKept)).mono fun t ⟨hs, hiff⟩ ↦ ⟨hs, ?_⟩
  exact ⟨fun ht ↦ hiff.mp ht.toKept, fun hsafe ↦ (hiff.mpr hsafe).tallied hs⟩

/-- A node that failed five times stays bad when the nodes are updated, and is good as well if it was seen in the last
fifteen minutes. -/
theorem run_not_tallied : ∃ s, forEach receive [.replied .ones true 1000, .inactive .ones true 1001,
    .inactive .ones true 1001, .inactive .ones true 1001, .inactive .ones true 1001, .inactive .ones true 1001,
    .timeout 1500] (fresh .zero) = .ok s ∧ ¬ Tallied s :=
  ⟨_, rfl, fun h ↦ h.apart .ones _ rfl ⟨rfl, rfl⟩⟩

end Run

end DhtRouter

end LibTorrent
