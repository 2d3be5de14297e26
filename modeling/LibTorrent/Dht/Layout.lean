import LibTorrent.Dht.Router
import LibTorrent.Lib.Tiling

namespace LibTorrent

open DhtBucket Function HashString Lib.Tiling List

namespace DhtBucket

theorem isInRange_iff {id : HashString} {b : DhtBucket} :
    b.isInRange id = true ↔ b.idBegin.value ≤ id.value ∧ id.value ≤ b.idEnd.value := by
  rw [isInRange, Bool.and_eq_true, le_iff, le_iff]

end DhtBucket

namespace DhtRouter

variable (s : DhtRouter)

def refs : List ℕ := s.routingTable.map Prod.snd

def places : List (HashString × Option ℕ) := s.nodes.map fun n ↦ (n.id, n.bucket)

def first (b : ℕ) : ℕ := (s.buckets b).idBegin.value

def last (b : ℕ) : ℕ := (s.buckets b).idEnd.value

structure Covers (s : DhtRouter) : Prop where
  tiles : Tiles s.first s.last 0 s.refs (2 ^ 160)
  keys : ∀ p ∈ s.routingTable, p.1 = (s.buckets p.2).idEnd
  fresh : ∀ b ∈ s.refs, b < s.next
  aligned : ∀ b ∈ s.refs, ∃ w, Aligned w (s.buckets b).idBegin.bytes (s.buckets b).idEnd.bytes
  own : s.bucket ∈ s.refs
  ownRange : (s.buckets s.bucket).isInRange s.id = true

/-- Each bucket's child is the one before it in the list, and its parent the one after it. -/
def Linked (buckets : ℕ → DhtBucket) : Option ℕ → List ℕ → Prop
  | _, [] => True
  | child, b :: rest => (buckets b).child = child ∧ (buckets b).parent = rest.head? ∧ Linked buckets (some b) rest

/-- The links lead from the router's own bucket, which has no child, through all buckets. -/
def Chained : Prop :=
  ∃ rest, Linked s.buckets none (s.bucket :: rest) ∧ (s.bucket :: rest).Perm s.refs

/-- Each node is in the bucket of its range, but for the new node, which is in none. -/
structure Filed (new : Option HashString) (s : DhtRouter) : Prop where
  ids : (s.places.map Prod.fst).Nodup
  placed : ∀ p ∈ s.places, if new = some p.1 then p.2 = none else ∃ b ∈ s.refs, p.2 = some b ∧ p.1 ∈ (s.buckets b).nodes
  held : ∀ b ∈ s.refs, ∀ id ∈ (s.buckets b).nodes, (s.buckets b).isInRange id = true ∧ (id, some b) ∈ s.places
  nodup : ∀ b ∈ s.refs, (s.buckets b).nodes.Nodup
  small : ∀ b ∈ s.refs, (s.buckets b).nodes.length ≤ numNodes
  known : ∀ id, new = some id → (id, none) ∈ s.places

structure Sound (new : Option HashString) (s : DhtRouter) : Prop where
  covers : Covers s
  chained : Chained s
  filed : Filed new s

section Bare

/-- The router without what it knows of how well the nodes reply. -/
def bare : DhtRouter :=
  { s with
    quality := ⟨0, false, 0⟩
    buckets := fun b ↦ { s.buckets b with good := 0, bad := 0 }
    nodes := s.nodes.map fun n ↦ { n with quality := ⟨0, false, 0⟩ } }

theorem places_bare : s.bare.places = s.places := by
  rw [places, bare, map_map]
  rfl

theorem linked_bare (child : Option ℕ) (l : List ℕ) :
    Linked s.bare.buckets child l ↔ Linked s.buckets child l := by
  induction l generalizing child with
  | nil => exact .rfl
  | cons b l ih => exact and_congr_right fun _ ↦ and_congr_right fun _ ↦ ih (some b)

theorem covers_bare : Covers s.bare ↔ Covers s :=
  ⟨fun h ↦ ⟨h.tiles, h.keys, h.fresh, h.aligned, h.own, h.ownRange⟩,
    fun h ↦ ⟨h.tiles, h.keys, h.fresh, h.aligned, h.own, h.ownRange⟩⟩

theorem chained_bare : Chained s.bare ↔ Chained s := exists_congr fun _ ↦ and_congr_left fun _ ↦ linked_bare s _ _

theorem filed_bare (new : Option HashString) (s : DhtRouter) : Filed new s.bare ↔ Filed new s := by
  have hplaces := places_bare s
  constructor
  · intro h
    exact ⟨hplaces ▸ h.ids, hplaces ▸ h.placed, hplaces ▸ h.held, h.nodup, h.small, hplaces ▸ h.known⟩
  · intro h
    exact ⟨hplaces ▸ h.ids, hplaces ▸ h.placed, hplaces ▸ h.held, h.nodup, h.small, hplaces ▸ h.known⟩

variable {new : Option HashString} {s t : DhtRouter}

theorem Sound.congr (h : Sound new s) (hbare : t.bare = s.bare) : Sound new t := by
  have hs : Sound new s.bare := ⟨(covers_bare s).mpr h.covers, (chained_bare s).mpr h.chained, (filed_bare new s).mpr h.filed⟩
  rw [← hbare] at hs
  exact ⟨(covers_bare t).mp hs.covers, (chained_bare t).mp hs.chained, (filed_bare new t).mp hs.filed⟩

theorem field_update {α : Type} (g : DhtBucket → α) {buckets : ℕ → DhtBucket} {b : ℕ} {B : DhtBucket}
    (hg : g B = g (buckets b)) (x : ℕ) : g (update buckets b B x) = g (buckets x) := by
  by_cases hx : x = b
  · subst hx
    rw [update_self, hg]
  · rw [update_of_ne hx]

theorem bare_modifyBucket (b : ℕ) {f : DhtBucket → DhtBucket}
    (hf : ∀ B, { f B with good := 0, bad := 0 } = { B with good := 0, bad := 0 }) :
    (s.modifyBucket b f).bare = s.bare := by
  have hbuckets : (s.modifyBucket b f).bare.buckets = s.bare.buckets :=
    funext (field_update (fun B ↦ { B with good := 0, bad := 0 }) (hf (s.buckets b)))
  exact congrArg (fun buckets ↦ { s.bare with buckets := buckets }) hbuckets

theorem bare_modifyNode (id : HashString) {f : DhtNode → DhtNode}
    (hf : ∀ n, { f n with quality := ⟨0, false, 0⟩ } = { n with quality := ⟨0, false, 0⟩ }) :
    (s.modifyNode id f).bare = s.bare := by
  have hnodes : (s.modifyNode id f).bare.nodes = s.bare.nodes := by
    simp only [bare, modifyNode, map_map]
    refine map_congr_left fun n _ ↦ ?_
    rw [comp_apply]
    split_ifs
    · exact hf n
    · rfl
  exact congrArg (fun nodes ↦ { s.bare with nodes := nodes }) hnodes

theorem bare_count (b : ℕ) (s : DhtRouter) : (s.count b).bare = s.bare := bare_modifyBucket b fun _ ↦ rfl

theorem bare_setGood (id : HashString) (now : UInt32) (s : DhtRouter) : (s.setGood id now).bare = s.bare := by
  rw [setGood]
  split
  · rfl
  rw [bare_modifyNode id (f := fun n ↦ { n with quality := ⟨now, true, 0⟩ }) fun _ ↦ rfl]
  split
  · split_ifs
    · rfl
    · exact bare_modifyBucket _ fun _ ↦ rfl
  · rfl

theorem bare_setSelfGood (now : UInt32) (s : DhtRouter) : (s.setSelfGood now).bare = s.bare := by
  rw [setSelfGood]
  split_ifs
  · rfl
  · exact bare_modifyBucket (s := s) s.bucket fun _ ↦ rfl

theorem bare_setInactive (id : HashString) (s : DhtRouter) : (s.setInactive id).bare = s.bare := by
  rw [setInactive]
  split
  · rfl
  split
  · refine (bare_modifyNode id ?_).trans ?_
    · exact fun _ ↦ rfl
    split
    · split_ifs
      · rfl
      · exact bare_modifyBucket _ fun _ ↦ rfl
    · rfl
  · refine bare_modifyNode id ?_
    exact fun _ ↦ rfl

theorem bare_foldl_count (l : List (HashString × ℕ)) (s : DhtRouter) :
    (l.foldl (fun t p ↦ t.count p.2) s).bare = s.bare := by
  induction l generalizing s with
  | nil => rfl
  | cons p l ih => rw [foldl_cons, ih, bare_count]

end Bare

section Lookup

variable {new : Option HashString} {s : DhtRouter} {id : HashString}

theorem mem_refs {b : ℕ} (h : b ∈ s.refs) : ∃ key, (key, b) ∈ s.routingTable := by
  obtain ⟨p, hp, rfl⟩ := mem_map.mp h
  exact ⟨p.1, hp⟩

theorem Covers.around (h : Covers s) (id : HashString) :
    ∃ pre b post, s.routingTable = pre ++ ((s.buckets b).idEnd, b) :: post ∧
      (∀ p ∈ pre, p.1.value < id.value) ∧ (s.buckets b).isInRange id = true := by
  obtain ⟨pre, b, post, hrefs, hpre, hrange⟩ := h.tiles.exists_piece (Nat.zero_le _) id.value_lt
  obtain ⟨front, back, htable, rfl, hback⟩ := map_eq_append_iff.mp hrefs
  obtain ⟨⟨key, b'⟩, rear, rfl, rfl, rfl⟩ := map_eq_cons_iff.mp hback
  have hkey : key = (s.buckets b').idEnd := h.keys (key, b') (by rw [htable]; simp)
  subst hkey
  refine ⟨front, b', rear, htable, fun p hp ↦ ?_, isInRange_iff.mpr hrange⟩
  rw [h.keys p (by rw [htable]; simp [hp])]
  exact hpre p.2 (mem_map_of_mem hp)

theorem Covers.findBucket (h : Covers s) (id : HashString) :
    ∃ b ∈ s.refs, s.findBucket id = some b ∧ (s.buckets b).isInRange id = true := by
  obtain ⟨pre, b, post, htable, hpre, hrange⟩ := h.around id
  refine ⟨b, by rw [refs, htable]; simp, ?_, hrange⟩
  have hskip : pre.find? (fun p ↦ !p.1.lt id) = none := by
    refine find?_eq_none.mpr fun p hp ↦ ?_
    simp [(lt_iff p.1 id).mpr (hpre p hp)]
  have hstop : (s.buckets b).idEnd.lt id = false := by
    rw [← Bool.not_eq_true, lt_iff]
    exact Nat.not_lt.mpr (isInRange_iff.mp hrange).2
  rw [DhtRouter.findBucket, htable, find?_append, hskip, find?_cons, hstop]
  rfl

theorem Covers.unique (h : Covers s) {a b : ℕ} (ha : a ∈ s.refs) (hb : b ∈ s.refs)
    (hida : (s.buckets a).isInRange id = true) (hidb : (s.buckets b).isInRange id = true) : a = b := by
  obtain ⟨ha₁, ha₂⟩ := isInRange_iff.mp hida
  obtain ⟨hb₁, hb₂⟩ := isInRange_iff.mp hidb
  exact h.tiles.unique ha hb ha₁ ha₂ hb₁ hb₂

theorem findNode_some {n : DhtNode} (h : s.findNode id = some n) : n.id = id ∧ (id, n.bucket) ∈ s.places := by
  have hid : n.id = id := by simpa using find?_some h
  exact ⟨hid, mem_map.mpr ⟨n, mem_of_find?_eq_some h, by rw [hid]⟩⟩

theorem findNode_none (h : s.findNode id = none) {p : HashString × Option ℕ} (hp : p ∈ s.places) : p.1 ≠ id := by
  obtain ⟨n, hn, rfl⟩ := mem_map.mp hp
  simpa using find?_eq_none.mp h n hn

theorem findNode_of_mem {o : Option ℕ} (hids : (s.places.map Prod.fst).Nodup) (h : (id, o) ∈ s.places) :
    ∃ n, s.findNode id = some n ∧ n.bucket = o := by
  cases hfind : s.findNode id with
  | none => exact absurd rfl (findNode_none hfind h)
  | some n => exact ⟨n, rfl, congrArg Prod.snd (inj_on_of_nodup_map hids (findNode_some hfind).2 h rfl)⟩

end Lookup

end DhtRouter

open Lib.Outcome

namespace DhtRouter

structure Frame (s t : DhtRouter) : Prop where
  id : t.id = s.id
  bucket : t.bucket = s.bucket
  next : t.next = s.next
  table : t.routingTable = s.routingTable
  idBegin : ∀ x, (t.buckets x).idBegin = (s.buckets x).idBegin
  idEnd : ∀ x, (t.buckets x).idEnd = (s.buckets x).idEnd
  parent : ∀ x, (t.buckets x).parent = (s.buckets x).parent
  child : ∀ x, (t.buckets x).child = (s.buckets x).child

theorem Linked.congr {buckets buckets' : ℕ → DhtBucket} {child : Option ℕ} {l : List ℕ} (h : Linked buckets child l)
    (hl : ∀ x ∈ l, (buckets' x).parent = (buckets x).parent ∧ (buckets' x).child = (buckets x).child) :
    Linked buckets' child l := by
  induction l generalizing child with
  | nil => trivial
  | cons b l ih =>
    obtain ⟨hparent, hchild⟩ := hl b mem_cons_self
    exact ⟨hchild.trans h.1, hparent.trans h.2.1, ih h.2.2 fun x hx ↦ hl x (mem_cons_of_mem b hx)⟩

namespace Frame

variable {s t : DhtRouter}

theorem refs (h : Frame s t) : t.refs = s.refs := by rw [DhtRouter.refs, h.table, DhtRouter.refs]

theorem isInRange (h : Frame s t) (x : ℕ) (id : HashString) :
    (t.buckets x).isInRange id = (s.buckets x).isInRange id := by
  rw [DhtBucket.isInRange, DhtBucket.isInRange, h.idBegin, h.idEnd]

theorem covers (h : Frame s t) (hs : Covers s) : Covers t := by
  refine ⟨?_, ?_, ?_, ?_, ?_, ?_⟩
  · rw [h.refs]
    exact hs.tiles.congr fun x _ ↦ ⟨congrArg HashString.value (h.idBegin x), congrArg HashString.value (h.idEnd x)⟩
  · intro p hp
    rw [h.idEnd]
    exact hs.keys p (h.table ▸ hp)
  · rw [h.refs, h.next]
    exact hs.fresh
  · intro b hb
    rw [h.idBegin, h.idEnd]
    exact hs.aligned b (h.refs ▸ hb)
  · rw [h.bucket, h.refs]
    exact hs.own
  · rw [h.isInRange, h.bucket, h.id]
    exact hs.ownRange

theorem chained (h : Frame s t) (hs : Chained s) : Chained t := by
  obtain ⟨rest, hlinked, hperm⟩ := hs
  rw [Chained, h.bucket, h.refs]
  exact ⟨rest, hlinked.congr fun x _ ↦ ⟨h.parent x, h.child x⟩, hperm⟩

end Frame

theorem frame_modifyBucket (s : DhtRouter) (b : ℕ) {B : DhtBucket} (nodes : List DhtNode)
    (hbegin : B.idBegin = (s.buckets b).idBegin) (hend : B.idEnd = (s.buckets b).idEnd)
    (hparent : B.parent = (s.buckets b).parent) (hchild : B.child = (s.buckets b).child) :
    Frame s { s.modifyBucket b (fun _ ↦ B) with nodes := nodes } :=
  ⟨rfl, rfl, rfl, rfl, field_update _ hbegin, field_update _ hend, field_update _ hparent, field_update _ hchild⟩

namespace Filed

variable {new : Option HashString} {s : DhtRouter} {b : ℕ} {id : HashString} {o o' : Option ℕ}

theorem place_unique (h : Filed new s) (ho : (id, o) ∈ s.places) (ho' : (id, o') ∈ s.places) : o = o' :=
  congrArg Prod.snd (inj_on_of_nodup_map h.ids ho ho' rfl)

variable (h : Filed new s) (hb : b ∈ s.refs) (hid : id ∈ (s.buckets b).nodes)
include h hb hid

theorem place_eq (ho : (id, o) ∈ s.places) : o = some b := h.place_unique ho (h.held b hb id hid).2

theorem ne_new : new ≠ some id := by
  intro hnew
  exact absurd (h.place_eq hb hid (h.known id hnew)) (by simp)

end Filed

section Delete

variable {new : Option HashString} {s : DhtRouter} {b : ℕ} {id : HashString}

theorem places_filter (s : DhtRouter) (id : HashString) (buckets : ℕ → DhtBucket) :
    ({ s with buckets := buckets, nodes := s.nodes.filter fun n ↦ n.id ≠ id } : DhtRouter).places =
      s.places.filter fun p ↦ p.1 ≠ id := by
  simp only [places, filter_map]
  rfl

theorem mem_places_filter {buckets : ℕ → DhtBucket} :
    p ∈ ({ s with buckets := buckets, nodes := s.nodes.filter fun n ↦ n.id ≠ id } : DhtRouter).places ↔
      p ∈ s.places ∧ p.1 ≠ id := by
  rw [places_filter, mem_filter, decide_eq_true_eq]

theorem Sound.deleteNew (h : Sound (some id) s) : Gives (s.deleteNode id) (Sound none) := by
  obtain ⟨n, hfind, hbucket⟩ := findNode_of_mem h.filed.ids (h.filed.known id rfl)
  rw [deleteNode, hfind]
  simp only [hbucket, ensures_ok]
  refine ⟨⟨h.covers.tiles, h.covers.keys, h.covers.fresh, h.covers.aligned, h.covers.own, h.covers.ownRange⟩,
    h.chained, ?_, ?_, ?_, h.filed.nodup, h.filed.small, by simp⟩
  · exact places_filter s id s.buckets ▸ h.filed.ids.sublist (filter_sublist.map _)
  · intro p hp
    obtain ⟨hp, hne⟩ := mem_places_filter.mp hp
    have := h.filed.placed p hp
    rwa [if_neg (by simpa using hne.symm)] at this
  intro x hx y hy
  obtain ⟨hrange, hplace⟩ := h.filed.held x hx y hy
  exact ⟨hrange, mem_places_filter.mpr ⟨hplace, fun he ↦ h.filed.ne_new hx hy (congrArg some he.symm)⟩⟩

theorem ensures_removeNode {B : DhtBucket} (q : Quality) (hid : id ∈ B.nodes) :
    Gives (B.removeNode id q) fun C ↦ C.nodes = B.nodes.erase id ∧ C.idBegin = B.idBegin ∧
      C.idEnd = B.idEnd ∧ C.parent = B.parent ∧ C.child = B.child := by
  rw [DhtBucket.removeNode, if_neg (not_not_intro hid)]
  exact ⟨rfl, rfl, rfl, rfl, rfl⟩

theorem Sound.deleteNode (h : Sound new s) (hb : b ∈ s.refs) (hid : id ∈ (s.buckets b).nodes) :
    Gives (s.deleteNode id) fun t ↦
      Sound new t ∧ Frame s t ∧ (t.buckets b).nodes = (s.buckets b).nodes.erase id := by
  obtain ⟨n, hfind, hbucket⟩ := findNode_of_mem h.filed.ids (h.filed.held b hb id hid).2
  rw [DhtRouter.deleteNode, hfind]
  simp only [hbucket]
  refine (ensures_removeNode n.quality hid).bind fun B ⟨hnodes, hbegin, hend, hparent, hchild⟩ ↦ ?_
  have hframe := frame_modifyBucket s b (s.nodes.filter fun n ↦ n.id ≠ id) hbegin hend hparent hchild
  refine ⟨⟨hframe.covers h.covers, hframe.chained h.chained, ?_⟩, hframe, ?_⟩
  · have hsub (x : ℕ) : (update s.buckets b B x).nodes.Sublist (s.buckets x).nodes := by
      by_cases hx : x = b
      · subst hx
        rw [update_self, hnodes]
        exact erase_sublist
      · rw [update_of_ne hx]
    have hstay {x : ℕ} {y : HashString} (hy : y ∈ (s.buckets x).nodes) (hne : y ≠ id) :
        y ∈ (update s.buckets b B x).nodes := by
      by_cases hx : x = b
      · subst hx
        rw [update_self, hnodes]
        exact (mem_erase_of_ne hne).mpr hy
      · rwa [update_of_ne hx]
    have hgone {x : ℕ} (hx : x ∈ s.refs) : id ∉ (update s.buckets b B x).nodes := by
      intro hmem
      obtain rfl : x = b := Option.some_inj.mp
        (h.filed.place_unique (h.filed.held x hx id ((hsub x).subset hmem)).2 (h.filed.held b hb id hid).2)
      rw [update_self, hnodes] at hmem
      exact (h.filed.nodup x hx).not_mem_erase hmem
    refine ⟨?_, ?_, ?_, ?_, ?_, ?_⟩
    · exact places_filter s id (update s.buckets b B) ▸ h.filed.ids.sublist (filter_sublist.map _)
    · intro p hp
      obtain ⟨hp, hne⟩ := mem_places_filter.mp hp
      have hplaced := h.filed.placed p hp
      split_ifs at hplaced ⊢
      · exact hplaced
      · obtain ⟨x, hx, hpx, hnode⟩ := hplaced
        exact ⟨x, hx, hpx, hstay hnode hne⟩
    · intro x hx y hy
      obtain ⟨hrange, hplace⟩ := h.filed.held x hx y ((hsub x).subset hy)
      exact ⟨(hframe.isInRange x y).trans hrange, mem_places_filter.mpr ⟨hplace, fun he ↦ hgone hx (he ▸ hy)⟩⟩
    · exact fun x hx ↦ (h.filed.nodup x hx).sublist (hsub x)
    · exact fun x hx ↦ (hsub x).length_le.trans (h.filed.small x hx)
    · intro y hy
      refine mem_places_filter.mpr ⟨h.filed.known y hy, fun he ↦ ?_⟩
      exact h.filed.ne_new hb hid (hy.trans (congrArg some he))
  · change (update s.buckets b B b).nodes = _
    rw [update_self, hnodes]

end Delete

end DhtRouter

open Lib.OrderedMap

theorem HashString.halves {w : ℕ} {b e : HashString} (h : Aligned (w + 1) b.bytes e.bytes) :
    Aligned w b.bytes (b.midPoint e).bytes ∧ Aligned w (b.midPoint e).succ.bytes e.bytes ∧
      b.value ≤ (b.midPoint e).value ∧ (b.midPoint e).succ.value = (b.midPoint e).value + 1 ∧
      (b.midPoint e).value < e.value := by
  obtain ⟨hlow, hhigh, -⟩ := h.split
  have hpow : 0 < 2 ^ w := Nat.two_pow_pos w
  have hvalue : e.value + 1 = b.value + 2 ^ (w + 1) := h.load_eq
  have hmid : (b.midPoint e).value + 1 = b.value + 2 ^ w := hlow.load_eq
  have hnext : e.value + 1 = (b.midPoint e).succ.value + 2 ^ w := hhigh.load_eq
  exact ⟨hlow, hhigh, by omega, by omega, by omega⟩

namespace DhtRouter

section Refile

variable {P : HashString → Prop} [DecidablePred P] {b : ℕ} {l : List (HashString × Option ℕ)}
  {p : HashString × Option ℕ} {id : HashString} {o : Option ℕ}

def refile (P : HashString → Prop) [DecidablePred P] (b : ℕ) (l : List (HashString × Option ℕ)) :
    List (HashString × Option ℕ) :=
  l.map fun p ↦ if P p.1 then (p.1, some b) else p

theorem map_fst_refile : (refile P b l).map Prod.fst = l.map Prod.fst := by
  rw [refile, map_map]
  refine map_congr_left fun p _ ↦ ?_
  rw [comp_apply]
  split_ifs <;> rfl

theorem refile_moved (h : (id, o) ∈ l) (hid : P id) : (id, some b) ∈ refile P b l :=
  mem_map.mpr ⟨(id, o), h, if_pos hid⟩

theorem refile_kept (h : (id, o) ∈ l) (hid : ¬ P id) : (id, o) ∈ refile P b l :=
  mem_map.mpr ⟨(id, o), h, if_neg hid⟩

theorem refile_cases (h : p ∈ refile P b l) : (P p.1 ∧ p.2 = some b ∧ ∃ o, (p.1, o) ∈ l) ∨ ¬ P p.1 ∧ p ∈ l := by
  obtain ⟨q, hq, rfl⟩ := mem_map.mp h
  by_cases hP : P q.1
  · rw [if_pos hP]
    exact .inl ⟨hP, rfl, q.2, hq⟩
  · rw [if_neg hP]
    exact .inr ⟨hP, hq⟩

end Refile

section Add

variable {s : DhtRouter} {b : ℕ} {id : HashString}

theorem Sound.addNode (h : Sound (some id) s) (hb : b ∈ s.refs) (hrange : (s.buckets b).isInRange id = true)
    (hroom : (s.buckets b).isFull = false) (q : Quality) :
    Sound none ((s.modifyBucket b fun B ↦ B.addNode id q).modifyNode id fun n ↦ { n with bucket := some b }) := by
  let t : DhtRouter := (s.modifyBucket b fun B ↦ B.addNode id q).modifyNode id fun n ↦ { n with bucket := some b }
  have hframe : Frame s t := frame_modifyBucket s b (B := (s.buckets b).addNode id q) _ rfl rfl rfl rfl
  have hplaces : t.places = refile (· = id) b s.places := by
    simp only [t, places, refile, modifyNode, map_map]
    refine map_congr_left fun n _ ↦ ?_
    simp only [comp_apply]
    split_ifs <;> rfl
  have hnodes (x : ℕ) : (t.buckets x).nodes = if x = b then (s.buckets b).nodes ++ [id] else (s.buckets x).nodes := by
    change (update s.buckets b _ x).nodes = _
    by_cases hx : x = b
    · subst hx
      rw [update_self, if_pos rfl]
      rfl
    · rw [update_of_ne hx, if_neg hx]
  have hne {x : ℕ} (hx : x ∈ s.refs) {y : HashString} (hy : y ∈ (s.buckets x).nodes) : y ≠ id :=
    fun he ↦ h.filed.ne_new hx hy (congrArg some he.symm)
  change Sound none t
  refine ⟨hframe.covers h.covers, hframe.chained h.chained, ?_, ?_, ?_, ?_, ?_, by simp⟩
  · rw [hplaces, map_fst_refile]
    exact h.filed.ids
  · intro p hp
    rcases refile_cases (hplaces ▸ hp) with ⟨hpid, hpb, -⟩ | ⟨hpid, hp⟩
    · refine ⟨b, hb, hpb, ?_⟩
      rw [hnodes, if_pos rfl, hpid]
      simp
    have hplaced := h.filed.placed p hp
    rw [if_neg (by simpa using Ne.symm hpid)] at hplaced
    obtain ⟨x, hx, hpx, hnode⟩ := hplaced
    refine ⟨x, hx, hpx, ?_⟩
    rw [hnodes]
    split_ifs with hxb
    · exact mem_append_left _ (hxb ▸ hnode)
    · exact hnode
  · intro x hx y hy
    rw [hframe.isInRange, hplaces]
    rw [hnodes] at hy
    split_ifs at hy with hxb
    · subst hxb
      rcases mem_append.mp hy with hold | hnew
      · obtain ⟨hrange, hplace⟩ := h.filed.held x hx y hold
        exact ⟨hrange, refile_kept hplace (hne hx hold)⟩
      · obtain rfl := mem_singleton.mp hnew
        exact ⟨hrange, refile_moved (h.filed.known y rfl) rfl⟩
    · obtain ⟨hrange, hplace⟩ := h.filed.held x hx y hy
      exact ⟨hrange, refile_kept hplace (hne hx hy)⟩
  · intro x hx
    rw [hnodes]
    split_ifs with hxb
    · exact concat_eq_append ▸ (h.filed.nodup b hb).concat fun hmem ↦ hne hb hmem rfl
    · exact h.filed.nodup x hx
  · intro x hx
    rw [hnodes]
    split_ifs with hxb
    · have hlt : ¬ DhtBucket.numNodes ≤ (s.buckets b).nodes.length := by simpa [DhtBucket.isFull] using hroom
      rw [length_append, length_singleton]
      omega
    · exact h.filed.small x hx

end Add

section Link

structure Regions (s t : DhtRouter) : Prop where
  id : t.id = s.id
  bucket : t.bucket = s.bucket
  next : t.next = s.next
  table : t.routingTable = s.routingTable
  known : t.nodes = s.nodes
  idBegin : ∀ x, (t.buckets x).idBegin = (s.buckets x).idBegin
  idEnd : ∀ x, (t.buckets x).idEnd = (s.buckets x).idEnd
  nodes : ∀ x, (t.buckets x).nodes = (s.buckets x).nodes

variable {s t u : DhtRouter}

theorem Regions.trans (h : Regions s t) (h' : Regions t u) : Regions s u :=
  ⟨h'.id.trans h.id, h'.bucket.trans h.bucket, h'.next.trans h.next, h'.table.trans h.table, h'.known.trans h.known,
    fun x ↦ (h'.idBegin x).trans (h.idBegin x), fun x ↦ (h'.idEnd x).trans (h.idEnd x),
    fun x ↦ (h'.nodes x).trans (h.nodes x)⟩

variable {f : DhtBucket → DhtBucket}

theorem regions_modifyBucket (s : DhtRouter) (b : ℕ)
    (hf : ∀ B, (f B).idBegin = B.idBegin ∧ (f B).idEnd = B.idEnd ∧ (f B).nodes = B.nodes) :
    Regions s (s.modifyBucket b f) :=
  ⟨rfl, rfl, rfl, rfl, rfl, field_update _ (hf _).1, field_update _ (hf _).2.1, field_update _ (hf _).2.2⟩

theorem regions_link (b o : ℕ) (id : HashString) (s : DhtRouter) : Regions s (s.link b o id) := by
  have hset (s : DhtRouter) (b : ℕ) (f : DhtBucket → Option ℕ) (g : DhtBucket → Option ℕ) :
      Regions s (s.modifyBucket b fun B ↦ { B with parent := f B, child := g B }) :=
    regions_modifyBucket s b fun _ ↦ ⟨rfl, rfl, rfl⟩
  rw [link]
  split
  · exact (hset s b _ _).trans (hset _ o _ _)
  refine Regions.trans ?_ ((hset _ b _ _).trans (hset _ o _ _))
  split
  · exact (hset s _ _ _).trans (hset _ o _ _)
  · exact ⟨rfl, rfl, rfl, rfl, rfl, fun _ ↦ rfl, fun _ ↦ rfl, fun _ ↦ rfl⟩

theorem bare_modifyBucket_comm (b : ℕ)
    (hf : ∀ B, { f B with good := 0, bad := 0 } = f { B with good := 0, bad := 0 }) :
    (s.modifyBucket b f).bare = s.bare.modifyBucket b f := by
  have hbuckets : (s.modifyBucket b f).bare.buckets = (s.bare.modifyBucket b f).buckets := by
    funext x
    simp only [bare, modifyBucket, apply_update fun _ (B : DhtBucket) ↦ { B with good := 0, bad := 0 }, hf]
  exact congrArg (fun buckets ↦ { s.bare with buckets := buckets }) hbuckets

theorem bare_link (b o : ℕ) (id : HashString) (s : DhtRouter) : (s.link b o id).bare = s.bare.link b o id := by
  have hrange : (s.bare.buckets o).isInRange id = (s.buckets o).isInRange id := rfl
  have hparent : (s.bare.buckets b).parent = (s.buckets b).parent := rfl
  rw [link, link, hrange, hparent]
  cases (s.buckets o).isInRange id with
  | true => simp only [if_true, bare_modifyBucket_comm, implies_true]
  | false =>
    cases (s.buckets b).parent with
    | none | some => simp [bare_modifyBucket_comm]

theorem bare_split (b : ℕ) (s : DhtRouter) : (s.split b).bare = ((s.halved b).link b s.next s.id).bare := by
  rw [split, bare_link, bare_count, bare_count, bare_link]

end Link

end DhtRouter

end LibTorrent
