import LibTorrent.Dht.Layout

namespace LibTorrent

open DhtBucket Function Lib.OrderedMap Lib.Tiling List

namespace DhtRouter

variable {new : Option HashString} {s u : DhtRouter} {b own w : ℕ}

def Same (A B : DhtBucket) : Prop := A.idBegin = B.idBegin ∧ A.idEnd = B.idEnd ∧ A.nodes = B.nodes

theorem Regions.same (h : Regions s u) (x : ℕ) : Same (u.buckets x) (s.buckets x) :=
  ⟨h.idBegin x, h.idEnd x, h.nodes x⟩

theorem halved_self (b : ℕ) (s : DhtRouter) : (s.halved b).buckets b = s.upperHalf b := update_self ..

theorem halved_next (hb : s.next ≠ b) : (s.halved b).buckets s.next = s.lowerHalf b :=
  (update_of_ne hb _ _).trans (update_self ..)

theorem halved_of_ne {x : ℕ} (hx : x ≠ b) (hx' : x ≠ s.next) : (s.halved b).buckets x = s.buckets x :=
  (update_of_ne hx _ _).trans (update_of_ne hx' _ _)

theorem places_halved (b : ℕ) (s : DhtRouter) :
    (s.halved b).places = refile (· ∈ (s.lowerHalf b).nodes) s.next s.places := by
  simp only [places, refile, halved, map_map]
  refine map_congr_left fun n _ ↦ ?_
  simp only [comp_apply]
  split_ifs <;> rfl

theorem Covers.next_ne (h : Covers s) {x : ℕ} (hx : x ∈ s.refs) : x ≠ s.next := (h.fresh x hx).ne

/-- The buckets after a split, as far as the links are not concerned. -/
theorem Covers.halves (h : Covers s) (hb : b ∈ s.refs) (hu : Regions (s.halved b) u) :
    Same (u.buckets s.next) (s.lowerHalf b) ∧ Same (u.buckets b) (s.upperHalf b) ∧
      ∀ x ∈ s.refs, x ≠ b → Same (u.buckets x) (s.buckets x) :=
  ⟨halved_next (h.next_ne hb).symm ▸ hu.same s.next, halved_self b s ▸ hu.same b,
    fun x hx hxb ↦ halved_of_ne hxb (h.next_ne hx) ▸ hu.same x⟩

theorem Covers.table (h : Covers s) (hb : b ∈ s.refs) :
    ∃ pre post, s.routingTable = pre ++ ((s.buckets b).idEnd, b) :: post ∧
      Tiles s.first s.last 0 (pre.map Prod.snd) (s.first b) ∧
      Tiles s.first s.last (s.last b + 1) (post.map Prod.snd) (2 ^ 160) := by
  obtain ⟨key, hkey⟩ := mem_refs hb
  obtain ⟨pre, post, htable⟩ := append_of_mem hkey
  obtain rfl : key = (s.buckets b).idEnd := h.keys _ hkey
  have htiles := h.tiles
  rw [refs, htable, map_append, map_cons] at htiles
  obtain ⟨mid, hpre, rfl, -, hpost⟩ := tiles_append.mp htiles
  exact ⟨pre, post, htable, hpre, hpost⟩

theorem Covers.emplace (h : Covers s)
    (ha : Aligned (w + 1) (s.buckets b).idBegin.bytes (s.buckets b).idEnd.bytes) {pre post : List (HashString × ℕ)}
    (htable : s.routingTable = pre ++ ((s.buckets b).idEnd, b) :: post)
    (hpre : Tiles s.first s.last 0 (pre.map Prod.snd) (s.first b)) :
    Lib.OrderedMap.emplace s.routingTable (s.lowerHalf b).idEnd s.next =
      pre ++ ((s.lowerHalf b).idEnd, s.next) :: ((s.buckets b).idEnd, b) :: post := by
  obtain ⟨-, -, hle, -, hlt⟩ := HashString.halves ha
  rw [htable]
  refine emplace_append (fun q hq ↦ ?_) hlt
  have hbelow := (hpre.bounds (mem_map_of_mem hq)).2.2
  have hkey := h.keys q (by rw [htable]; exact mem_append_left _ hq)
  rw [hkey]
  exact Nat.lt_of_lt_of_le hbelow hle

theorem isInRange_lowerHalf (ha : Aligned (w + 1) (s.buckets b).idBegin.bytes (s.buckets b).idEnd.bytes)
    {y : HashString} (hy : (s.buckets b).isInRange y = true) (hupper : ¬ (s.upperHalf b).isInRange y = true) :
    (s.lowerHalf b).isInRange y = true := by
  obtain ⟨-, -, -, hsucc, -⟩ := HashString.halves ha
  rw [isInRange_iff] at hy hupper ⊢
  simp only [lowerHalf, upperHalf] at hupper ⊢
  omega

/-- The router after a split: its own bucket is one of the halves, and the new one is in the table. -/
def entered (b own : ℕ) (s u : DhtRouter) : DhtRouter :=
  { u with bucket := own, routingTable := Lib.OrderedMap.emplace s.routingTable (s.lowerHalf b).idEnd s.next }

section

variable (h : Covers s) (hb : b ∈ s.refs)
  (ha : Aligned (w + 1) (s.buckets b).idBegin.bytes (s.buckets b).idEnd.bytes)
include h hb ha

theorem Covers.perm_refs : (entered b own s u).refs.Perm (s.next :: s.refs) := by
  obtain ⟨pre, post, htable, hpre, -⟩ := h.table hb
  rw [refs, entered, h.emplace ha htable hpre, refs, htable, map_append, map_append]
  exact perm_middle

theorem Covers.mem_entered {x : ℕ} : x ∈ (entered b own s u).refs ↔ x = s.next ∨ x ∈ s.refs := by
  rw [(h.perm_refs hb ha).mem_iff, mem_cons]

theorem Covers.split (hu : Regions (s.halved b) u)
    (hown : own = b ∨ own = s.next) (hrange : (u.buckets own).isInRange s.id = true) :
    Covers (entered b own s u) := by
  have hmem {x : ℕ} : x ∈ (entered b own s u).refs ↔ _ := h.mem_entered hb ha
  obtain ⟨hlow, hhigh, hle, hsucc, hlt⟩ := HashString.halves ha
  obtain ⟨pre, post, htable, hpre, hpost⟩ := h.table hb
  obtain ⟨⟨hnew₁, hnew₂, -⟩, ⟨hself₁, hself₂, -⟩, hold⟩ := h.halves hb hu
  have hnodup : (pre.map Prod.snd ++ b :: post.map Prod.snd).Nodup := by
    have := h.tiles.nodup
    rwa [refs, htable, map_append] at this
  obtain ⟨-, hnodup', hdisjoint⟩ := nodup_append.mp hnodup
  have hvalue {x : ℕ} (hx : x ∈ s.refs) (hxb : x ≠ b) :
      (entered b own s u).first x = s.first x ∧ (entered b own s u).last x = s.last x :=
    ⟨congrArg HashString.value (hold x hx hxb).1, congrArg HashString.value (hold x hx hxb).2.1⟩
  refine ⟨?_, ?_, ?_, ?_, ?_, ?_⟩
  · rw [refs, entered, h.emplace ha htable hpre, map_append]
    refine tiles_append.mpr ⟨s.first b, hpre.congr fun x hx ↦ ?_, ?_, ?_, ?_, ?_, ?_⟩
    · exact hvalue (by rw [refs, htable]; simp [hx]) fun hxb ↦ hdisjoint x hx b mem_cons_self hxb
    · exact congrArg HashString.value hnew₁
    · change (u.buckets s.next).idBegin.value ≤ (u.buckets s.next).idEnd.value
      rw [hnew₁, hnew₂]
      exact hle
    · change (u.buckets b).idBegin.value = (u.buckets s.next).idEnd.value + 1
      rw [hself₁, hnew₂]
      exact hsucc
    · change (u.buckets b).idBegin.value ≤ (u.buckets b).idEnd.value
      rw [hself₁, hself₂]
      exact hsucc.le.trans hlt
    have hlast : (u.buckets b).idEnd.value + 1 = s.last b + 1 := by rw [hself₂]; rfl
    change Tiles _ _ ((u.buckets b).idEnd.value + 1) (post.map Prod.snd) _
    rw [hlast]
    refine hpost.congr fun x hx ↦ hvalue (by rw [refs, htable]; simp [hx]) ?_
    exact fun hxb ↦ (nodup_cons.mp hnodup').1 (hxb ▸ hx)
  · intro p hp
    rw [entered, h.emplace ha htable hpre] at hp
    have hrest (hp : p ∈ s.routingTable) : p.1 = (u.buckets p.2).idEnd := by
      rw [h.keys p hp]
      by_cases hpb : p.2 = b
      · rw [hpb, hself₂]
        rfl
      · rw [(hold _ (mem_map_of_mem hp) hpb).2.1]
    rcases mem_append.mp hp with hp | hp
    · exact hrest (by rw [htable]; exact mem_append_left _ hp)
    rcases mem_cons.mp hp with rfl | hp
    · exact hnew₂.symm
    · exact hrest (by rw [htable]; exact mem_append_right _ hp)
  · intro x hx
    have hnext : (entered b own s u).next = s.next + 1 := hu.next
    rw [hnext]
    rcases hmem.mp hx with rfl | hx
    · exact Nat.lt_succ_self _
    · exact Nat.lt_succ_of_lt (h.fresh x hx)
  · intro x hx
    change ∃ w, Aligned w (u.buckets x).idBegin.bytes (u.buckets x).idEnd.bytes
    rcases hmem.mp hx with rfl | hx
    · exact ⟨w, by rw [hnew₁, hnew₂]; exact hlow⟩
    by_cases hxb : x = b
    · exact ⟨w, by rw [hxb, hself₁, hself₂]; exact hhigh⟩
    · rw [(hold x hx hxb).1, (hold x hx hxb).2.1]
      exact h.aligned x hx
  · refine hmem.mpr ?_
    rcases hown with rfl | rfl
    · exact .inr hb
    · exact .inl rfl
  · change (u.buckets own).isInRange u.id = true
    rw [hu.id]
    exact hrange

end

theorem Filed.split (h : Filed new s) (hc : Covers s) (hb : b ∈ s.refs)
    (ha : Aligned (w + 1) (s.buckets b).idBegin.bytes (s.buckets b).idEnd.bytes) (hu : Regions (s.halved b) u) :
    Filed new (entered b own s u) := by
  have hmem {x : ℕ} : x ∈ (entered b own s u).refs ↔ _ := hc.mem_entered hb ha
  have hplaces : (entered b own s u).places = refile (· ∈ (s.lowerHalf b).nodes) s.next s.places := by
    rw [← places_halved]
    exact congrArg (List.map fun n : DhtNode ↦ (n.id, n.bucket)) hu.known
  have hlower {y : HashString} (hy : y ∈ (s.lowerHalf b).nodes) : y ∈ (s.buckets b).nodes := mem_of_mem_filter hy
  obtain ⟨⟨hnew₁, hnew₂, hnew⟩, ⟨hself₁, hself₂, hself⟩, hold⟩ := hc.halves hb hu
  have hsub {x : ℕ} (hx : x ∈ (entered b own s u).refs) :
      ∃ y ∈ s.refs, (u.buckets x).nodes.Sublist (s.buckets y).nodes := by
    rcases hmem.mp hx with rfl | hx
    · exact ⟨b, hb, hnew ▸ filter_sublist⟩
    by_cases hxb : x = b
    · exact ⟨b, hb, by rw [hxb, hself]; exact filter_sublist⟩
    · exact ⟨x, hx, by rw [(hold x hx hxb).2.2]⟩
  refine ⟨?_, ?_, ?_, ?_, ?_, ?_⟩
  · rw [hplaces, map_fst_refile]
    exact h.ids
  · intro p hp
    rcases refile_cases (hplaces ▸ hp) with ⟨hpl, hpo, -⟩ | ⟨hpl, hp⟩
    · rw [if_neg (h.ne_new hb (hlower hpl))]
      refine ⟨s.next, hmem.mpr (.inl rfl), hpo, ?_⟩
      change p.1 ∈ (u.buckets s.next).nodes
      rwa [hnew]
    have hplaced := h.placed p hp
    split_ifs at hplaced ⊢
    · exact hplaced
    obtain ⟨x, hx, hpx, hnode⟩ := hplaced
    refine ⟨x, hmem.mpr (.inr hx), hpx, ?_⟩
    change p.1 ∈ (u.buckets x).nodes
    by_cases hxb : x = b
    · subst hxb
      rw [hself]
      simp only [lowerHalf, upperHalf, mem_filter, not_and, Bool.not_eq_true', Bool.not_eq_false] at hpl ⊢
      exact ⟨hnode, hpl hnode⟩
    · rwa [(hold x hx hxb).2.2]
  · intro x hx y hy
    change (u.buckets x).isInRange y = true ∧ (y, some x) ∈ (entered b own s u).places
    replace hy : y ∈ (u.buckets x).nodes := hy
    rw [hplaces]
    rcases hmem.mp hx with rfl | hxs
    · rw [hnew] at hy
      obtain ⟨hrange, hplace⟩ := h.held b hb y (hlower hy)
      refine ⟨?_, refile_moved hplace hy⟩
      have hlow := (mem_filter.mp hy).2
      rw [Bool.not_eq_true', ← Bool.not_eq_true] at hlow
      rw [isInRange, hnew₁, hnew₂]
      exact isInRange_lowerHalf ha hrange hlow
    · by_cases hxb : x = b
      · subst hxb
        rw [hself] at hy
        obtain ⟨hmemb, hhigh⟩ := mem_filter.mp hy
        refine ⟨?_, refile_kept (h.held x hxs y hmemb).2 fun hl ↦ ?_⟩
        · rw [isInRange, hself₁, hself₂]
          exact hhigh
        have hlow := (mem_filter.mp hl).2
        rw [hhigh] at hlow
        exact absurd hlow (by decide)
      · obtain ⟨hbegin, hend, hnodes⟩ := hold x hxs hxb
        rw [hnodes] at hy
        obtain ⟨hrange, hplace⟩ := h.held x hxs y hy
        refine ⟨?_, refile_kept hplace fun hl ↦ hxb ?_⟩
        · rw [isInRange, hbegin, hend]
          exact hrange
        · exact Option.some_inj.mp (h.place_eq hb (hlower hl) hplace)
  · intro x hx
    obtain ⟨y, hy, hsublist⟩ := hsub hx
    exact (h.nodup y hy).sublist hsublist
  · intro x hx
    obtain ⟨y, hy, hsublist⟩ := hsub hx
    exact hsublist.length_le.trans (h.small y hy)
  · intro y hy
    rw [hplaces]
    exact refile_kept (h.known y hy) fun hl ↦ h.ne_new hb (hlower hl) hy

theorem Chained.split (h : Chained s) (hc : Covers s)
    (hrange : (s.lowerHalf s.bucket).isInRange s.id = true ∨ (s.upperHalf s.bucket).isInRange s.id = true)
    (hu : u = (s.halved s.bucket).link s.bucket s.next s.id) :
    ∃ own rest, ((u.buckets s.bucket).child).getD s.bucket = own ∧ (own = s.bucket ∨ own = s.next) ∧
      (u.buckets own).isInRange s.id = true ∧ Linked u.buckets none (own :: rest) ∧
      (own :: rest).Perm (s.next :: s.refs) := by
  obtain ⟨rest, ⟨hchild, hparent, hlinked⟩, hperm⟩ := h
  have hne : s.next ≠ s.bucket := (hc.next_ne hc.own).symm
  obtain ⟨hfirst, hnodup⟩ := nodup_cons.mp (hperm.symm.nodup hc.tiles.nodup)
  have hlower := halved_next hne
  have hupper : (s.halved s.bucket).buckets s.bucket = s.upperHalf s.bucket := halved_self ..
  have hlinks : (s.lowerHalf s.bucket).parent = none ∧ (s.lowerHalf s.bucket).child = none ∧
      (s.upperHalf s.bucket).parent = rest.head? ∧ (s.upperHalf s.bucket).child = none := ⟨rfl, rfl, hparent, hchild⟩
  have hregions : Regions (s.halved s.bucket) u := hu ▸ regions_link ..
  have hrest {x : ℕ} (hx : x ∈ rest) : x ≠ s.bucket ∧ x ≠ s.next :=
    ⟨fun he ↦ hfirst (he ▸ hx), hc.next_ne (hperm.mem_iff.mp (mem_cons_of_mem _ hx))⟩
  have hin (x : ℕ) : (u.buckets x).isInRange s.id = ((s.halved s.bucket).buckets x).isInRange s.id := by
    rw [isInRange, hregions.idBegin, hregions.idEnd]
    rfl
  by_cases hlow : (s.lowerHalf s.bucket).isInRange s.id = true
  · rw [link, hlower, if_pos hlow] at hu
    have hchain : Linked u.buckets none (s.next :: s.bucket :: rest) := by
      refine ⟨?_, ?_, ?_, ?_, hlinked.congr fun x hx ↦ ?_⟩
      iterate 4 simp [hu, modifyBucket, hne, hne.symm, hlower, hupper, hlinks]
      obtain ⟨hxb, hxo⟩ := hrest hx
      simp [hu, modifyBucket, hxb, hxo, halved_of_ne hxb hxo]
    exact ⟨s.next, s.bucket :: rest, by rw [hchain.2.2.1]; rfl, .inr rfl, by rw [hin, hlower]; exact hlow, hchain,
      hperm.cons _⟩
  · rw [link, hlower, if_neg hlow, hupper, hlinks.2.2.1] at hu
    have hchain : Linked u.buckets none (s.bucket :: s.next :: rest) := by
      cases rest with
      | nil => simp [Linked, hu, modifyBucket, hne, hne.symm, hlower, hupper, hlinks]
      | cons p rest =>
        obtain ⟨hpb, hpo⟩ := hrest mem_cons_self
        obtain ⟨hprest, -⟩ := nodup_cons.mp hnodup
        obtain ⟨-, hpparent, hplinked⟩ := hlinked
        refine ⟨?_, ?_, ?_, ?_, ?_, ?_, hplinked.congr fun x hx ↦ ?_⟩
        iterate 6
          simp [hu, modifyBucket, hne, hne.symm, hpb, hpb.symm, hpo, hupper, hlinks, hpparent,
            halved_of_ne hpb hpo]
        obtain ⟨hxb, hxo⟩ := hrest (mem_cons_of_mem p hx)
        have hxp : x ≠ p := fun he ↦ hprest (he ▸ hx)
        simp [hu, modifyBucket, hxb, hxo, hxp, halved_of_ne hxb hxo]
    exact ⟨s.bucket, s.next :: rest, by rw [hchain.1]; rfl, .inl rfl,
      by rw [hin, hupper]; exact hrange.resolve_left hlow, hchain, (List.Perm.swap ..).trans (hperm.cons _)⟩

end DhtRouter

open HashString Lib.Outcome Option

namespace DhtRouter

section Loop

variable {new : Option HashString} {s : DhtRouter} {b w : ℕ} {id : HashString}

structure Target (id : HashString) (b w : ℕ) (s : DhtRouter) : Prop where
  mem : b ∈ s.refs
  range : (s.buckets b).isInRange id = true
  aligned : Aligned w (s.buckets b).idBegin.bytes (s.buckets b).idEnd.bytes

theorem Sound.splitBucket (h : Sound new s) (hid : Target id s.bucket (w + 1) s) :
    Gives (s.splitBucket s.bucket id) fun r ↦
      Sound new r.2 ∧ Target id r.1 w r.2 ∧ ∀ x ∈ r.2.refs, x = s.next ∨ x ∈ s.refs := by
  obtain ⟨hmem, hrange, ha⟩ := hid
  obtain ⟨hlow, hhigh, -, -, -⟩ := halves ha
  have hhalf {y : HashString} (hy : (s.buckets s.bucket).isInRange y = true) :
      (s.lowerHalf s.bucket).isInRange y = true ∨ (s.upperHalf s.bucket).isInRange y = true :=
    (em _).symm.imp_left (isInRange_lowerHalf ha hy)
  generalize hu : (s.halved s.bucket).link s.bucket s.next s.id = u
  obtain ⟨own, rest, hchild, hown, hownRange, hlinked, hperm⟩ :=
    h.chained.split h.covers (hhalf h.covers.ownRange) hu.symm
  have hregions : Regions (s.halved s.bucket) u := hu ▸ regions_link ..
  obtain ⟨⟨hnext₁, hnext₂, -⟩, ⟨hself₁, hself₂, -⟩, -⟩ := h.covers.halves hmem hregions
  have hbare : (s.split s.bucket).bare = u.bare := hu ▸ bare_split s.bucket s
  have hbucket : (s.split s.bucket).bucket = s.bucket := (congrArg DhtRouter.bucket hbare).trans hregions.bucket
  have htable : (s.split s.bucket).routingTable = s.routingTable :=
    (congrArg DhtRouter.routingTable hbare).trans hregions.table
  have hin (x : ℕ) (y : HashString) : ((s.split s.bucket).buckets x).isInRange y = (u.buckets x).isInRange y := by
    have hsame := congrArg (fun r : DhtRouter ↦ (r.buckets x).isInRange y) hbare
    exact hsame
  have hend : ((s.split s.bucket).buckets s.next).idEnd = (s.lowerHalf s.bucket).idEnd :=
    (congrArg (fun r : DhtRouter ↦ (r.buckets s.next).idEnd) hbare).trans hnext₂
  have hchild' : (((s.split s.bucket).buckets (s.split s.bucket).bucket).child).getD (s.split s.bucket).bucket = own := by
    have hsame := congrArg (fun r : DhtRouter ↦ ((r.buckets s.bucket).child).getD s.bucket) hbare
    rw [hbucket, ← hchild]
    exact hsame
  have hfinal : (entered s.bucket own s (s.split s.bucket)).bare = (entered s.bucket own s u).bare :=
    congrArg (entered s.bucket own s) hbare
  have hsound : Sound new (entered s.bucket own s u) :=
    ⟨h.covers.split hmem ha hregions hown hownRange,
      ⟨rest, hlinked, hperm.trans (h.covers.perm_refs hmem ha).symm⟩, h.filed.split h.covers hmem ha hregions⟩
  have hrefs {x : ℕ} : x ∈ (entered s.bucket own s u).refs ↔ _ := h.covers.mem_entered hmem ha
  rw [DhtRouter.splitBucket]
  simp only [hchild', hin, hownRange, Bool.not_true, Bool.false_eq_true, if_false, htable, hend, ensures_ok]
  refine ⟨hsound.congr hfinal, ?_⟩
  have htarget : Target id (if (u.buckets s.next).isInRange id = true then s.next else s.bucket) w
      (entered s.bucket own s u) := by
    split_ifs with hlower
    · refine ⟨hrefs.mpr (.inl rfl), hlower, ?_⟩
      change Aligned w (u.buckets s.next).idBegin.bytes (u.buckets s.next).idEnd.bytes
      rw [hnext₁, hnext₂]
      exact hlow
    rw [isInRange, hnext₁, hnext₂] at hlower
    refine ⟨hrefs.mpr (.inr hmem), ?_, ?_⟩
    · change (u.buckets s.bucket).isInRange id = true
      rw [isInRange, hself₁, hself₂]
      exact (hhalf hrange).resolve_left hlower
    change Aligned w (u.buckets s.bucket).idBegin.bytes (u.buckets s.bucket).idEnd.bytes
    rw [hself₁, hself₂]
    exact hhigh
  exact ⟨⟨congrArg refs hfinal ▸ htarget.mem,
    (congrArg (fun r : DhtRouter ↦ (r.buckets _).isInRange id) hfinal).trans htarget.range,
    (congrArg (fun r : DhtRouter ↦ Aligned w (r.buckets _).idBegin.bytes (r.buckets _).idEnd.bytes) hfinal).mpr
      htarget.aligned⟩, fun x ↦ hrefs.mp⟩

theorem findCandidate_mem {l : List HashString} {oldest : Option HashString} {time : UInt32} {c : HashString}
    (h : s.findCandidate l oldest time = some c) : c ∈ l ∨ oldest = some c := by
  induction l generalizing oldest time with
  | nil => exact .inr h
  | cons y l ih =>
    rw [findCandidate] at h
    have hrest {o : Option HashString} {t : UInt32} (h : s.findCandidate l o t = some c)
        (ho : o = some c → c ∈ y :: l ∨ oldest = some c) : c ∈ y :: l ∨ oldest = some c :=
      (ih h).elim (fun hc ↦ .inl (mem_cons_of_mem y hc)) ho
    split at h
    · exact hrest h .inr
    split_ifs at h
    · exact .inl (mem_cons.mpr (.inl (some_inj.mp h).symm))
    · exact hrest h fun ho ↦ .inl (mem_cons.mpr (.inl (some_inj.mp ho).symm))
    · exact hrest h .inr

theorem Filed.width_pos (h : Filed new s) (hid : Target id b w s) (hfull : (s.buckets b).isFull = true) :
    0 < w := by
  rw [Nat.pos_iff_ne_zero]
  rintro rfl
  have hvalue : (s.buckets b).idEnd.value + 1 = (s.buckets b).idBegin.value + 1 := hid.aligned.load_eq
  have hsame {y z : HashString} (hy : y ∈ (s.buckets b).nodes) (hz : z ∈ (s.buckets b).nodes) : y = z := by
    have hy' := isInRange_iff.mp (h.held b hid.mem y hy).1
    have hz' := isInRange_iff.mp (h.held b hid.mem z hz).1
    exact value_injective (by omega)
  have hlength : 8 ≤ (s.buckets b).nodes.length := of_decide_eq_true hfull
  have hnodup := h.nodup b hid.mem
  match hnodes : (s.buckets b).nodes with
  | [] | [_] =>
    rw [hnodes] at hlength
    simp at hlength
  | y :: z :: l =>
    rw [hnodes] at hsame hnodup
    exact (nodup_cons.mp hnodup).1 (by rw [hsame (y := y) (z := z) (by simp) (by simp)]; simp)

/-- The one fault that is left: all nodes of a full bucket were last seen at the greatest time. -/
def noCandidate : DhtFault := .internalError "DhtBucket::find_candidate returned no node."

/-- What the steps of `add_node_to_bucket` keep, while the new node is in no bucket. -/
structure Carried (id : HashString) (P : DhtRouter → Prop) : Prop where
  delete : ∀ {s c}, Sound (some id) s → P s → Yields (s.deleteNode c) P
  split : ∀ {s r b}, s.splitBucket b id = .ok r → (∀ x ∈ r.2.refs, x = s.next ∨ x ∈ s.refs) → P s → P r.2
  add : ∀ {s n b}, s.findNode id = some n → P s →
    P ((s.modifyBucket b fun B ↦ B.addNode id n.quality).modifyNode id fun n ↦ { n with bucket := some b })

theorem carried_true : Carried id fun _ ↦ True :=
  ⟨fun _ _ ↦ yields_true _, fun _ _ _ ↦ trivial, fun _ _ ↦ trivial⟩

variable {P : DhtRouter → Prop}

variable (hP : Carried id P) (h : Sound (some id) s) (hs : P s)
include hP h hs

theorem addLoop_room (hid : Target id b w s) (hroom : (s.buckets b).isFull = false) (fuel : ℕ) :
    Gives (addLoop id (fuel + 1) b s) fun r ↦ Sound none r.2 ∧ P r.2 := by
  obtain ⟨n, hfind, -⟩ := findNode_of_mem h.filed.ids (h.filed.known id rfl)
  rw [addLoop, hroom, hfind]
  exact ⟨h.addNode hid.mem hid.range hroom n.quality, hP.add hfind hs⟩

theorem ensures_addLoop (hid : Target id b w s) {fuel : ℕ}
    (hfuel : w < fuel) : Ensures (· ≠ noCandidate) (addLoop id fuel b s) fun r ↦ Sound none r.2 ∧ P r.2 := by
  induction fuel generalizing b w s with
  | zero => exact absurd hfuel (Nat.not_lt_zero w)
  | succ fuel ih =>
    cases hfull : (s.buckets b).isFull with
    | false => exact (addLoop_room hP h hs hid hfull fuel).always
    | true =>
      have hpos := h.filed.width_pos hid hfull
      rw [addLoop, hfull, if_pos rfl]
      split
      · exact not_not_intro rfl
      rename_i c hc
      have hmem := (findCandidate_mem hc).resolve_right (by simp)
      refine .either ?_ (.ite (fun _ ↦ ?_) fun hown ↦ ?_)
      · refine ((hP.delete h hs).both (h.deleteNode hid.mem hmem).always).bind ?_
        rintro t ⟨hs, ht, hframe, hnodes⟩
        obtain ⟨fuel, rfl⟩ : ∃ k, fuel = k + 1 := ⟨fuel - 1, by omega⟩
        have htarget : Target id b w t :=
          ⟨hframe.refs ▸ hid.mem, (hframe.isInRange b id).trans hid.range,
            by rw [hframe.idBegin, hframe.idEnd]; exact hid.aligned⟩
        have hroom : (t.buckets b).isFull = false := by
          have hsmall := h.filed.small b hid.mem
          have hpos := length_pos_of_mem hmem
          rw [isFull, hnodes, length_erase_of_mem hmem, decide_eq_false_iff_not]
          omega
        exact (addLoop_room hP ht hs htarget hroom fuel).always
      · exact ((hP.delete h hs).both (h.deleteNew).always).bind fun t ht ↦ ht.symm
      · obtain rfl : b = s.bucket := not_not.mp hown
        obtain ⟨w, rfl⟩ : ∃ k, w = k + 1 := ⟨w - 1, by omega⟩
        refine ((yields_eq _).both (h.splitBucket hid).always).bind ?_
        rintro r ⟨hsplit, hr, htarget, hrefs⟩
        exact ih hr (hP.split hsplit hrefs hs) htarget (by omega)

theorem ensures_addNodeToBucket :
    Ensures (· ≠ noCandidate) (s.addNodeToBucket id) fun r ↦ Sound none r.2 ∧ P r.2 := by
  obtain ⟨b, hb, hfind, hrange⟩ := h.covers.findBucket id
  obtain ⟨w, ha⟩ := h.covers.aligned b hb
  have hw : w < turns := by
    have hvalue : (s.buckets b).idEnd.value + 1 = (s.buckets b).idBegin.value + 2 ^ w := ha.load_eq
    have hlt := (s.buckets b).idEnd.value_lt
    exact Nat.lt_succ_of_le ((Nat.pow_le_pow_iff_right (by omega)).mp (by omega : 2 ^ w ≤ 2 ^ 160))
  rw [addNodeToBucket, hfind]
  exact ensures_addLoop hP h hs ⟨hb, hrange, ha⟩ hw

end Loop

section Run

variable {s : DhtRouter} {id : HashString}

theorem Sound.newNode (h : Sound none s) (hid : ∀ p ∈ s.places, p.1 ≠ id) (q : Quality) :
    Sound (some id) (s.addNode id q) := by
  have hplaces : (s.addNode id q).places = s.places ++ [(id, none)] := map_append
  refine ⟨⟨h.covers.tiles, h.covers.keys, h.covers.fresh, h.covers.aligned, h.covers.own, h.covers.ownRange⟩,
    h.chained, ?_, ?_, ?_, h.filed.nodup, h.filed.small, ?_⟩
  · rw [hplaces, map_append]
    refine nodup_append.mpr ⟨h.filed.ids, nodup_singleton _, fun y hy z hz ↦ ?_⟩
    obtain ⟨p, hp, rfl⟩ := mem_map.mp hy
    rw [mem_singleton.mp hz]
    exact hid p hp
  · intro p hp
    rcases mem_append.mp (hplaces ▸ hp) with hp | hp
    · rw [if_neg fun he ↦ hid p hp (some_inj.mp he).symm]
      exact h.filed.placed p hp
    · obtain rfl := mem_singleton.mp hp
      rw [if_pos rfl]
  · intro b hb y hy
    obtain ⟨hrange, hplace⟩ := h.filed.held b hb y hy
    exact ⟨hrange, hplaces ▸ mem_append_left _ hplace⟩
  rintro y hy
  cases hy
  exact hplaces ▸ mem_append_right _ (mem_singleton_self _)

theorem Sound.deleteKnown (h : Sound none s) (hid : (s.findNode id).isSome = true) :
    Gives (s.deleteNode id) (Sound none) := by
  obtain ⟨n, hn⟩ := isSome_iff_exists.mp hid
  obtain ⟨-, hplace⟩ := findNode_some hn
  obtain ⟨b, hb, -, hnode⟩ := h.filed.placed _ hplace
  exact (h.deleteNode hb hnode).mono fun t ht ↦ ht.1

theorem fresh_sound (id : HashString) : Sound none (fresh id) := by
  have hones : ones.value + 1 = 2 ^ 160 := load_big_ones 20
  have hzero : zero.value = 0 := load_big_zeros 20
  refine ⟨⟨⟨hzero, ?_, hones⟩, ?_, ?_, ?_, ?_, ?_⟩, ⟨[], ⟨rfl, rfl, trivial⟩, .refl _⟩, ?_⟩
  · change zero.value ≤ ones.value
    omega
  · intro p hp
    obtain rfl := mem_singleton.mp hp
    rfl
  · intro b hb
    obtain rfl := mem_singleton.mp hb
    exact Nat.one_pos
  · exact fun b _ ↦ ⟨8 * 20, Aligned.zeros 20⟩
  · exact mem_singleton_self 0
  · have hlt := id.value_lt
    refine isInRange_iff.mpr ⟨?_, ?_⟩
    · change zero.value ≤ id.value
      omega
    · change id.value ≤ ones.value
      omega
  · exact ⟨nodup_nil, nofun, fun b _ y hy ↦ absurd hy not_mem_nil, fun b _ ↦ nodup_nil,
      fun b _ ↦ Nat.zero_le _, nofun⟩

section

variable (h : Sound none s)
include h

theorem ensures_nodeReplied (sameAddress : Bool) (now : UInt32) :
    Ensures (· ≠ noCandidate) (s.nodeReplied id sameAddress now) (Sound none) := by
  rw [nodeReplied]
  split
  · split_ifs
    · exact h.congr (bare_setGood ..)
    · exact h
  rename_i hnone
  refine .either ?_ ?_
  · split_ifs
    · exact h.congr (bare_setSelfGood ..)
    · exact h
  obtain ⟨b, -, hfind, -⟩ := h.covers.findBucket id
  have hwant : Ensures (· ≠ noCandidate) (s.wantNode id) fun _ ↦ True := by
    rw [wantNode, hfind]
    exact .either trivial trivial
  refine hwant.bind fun wanted _ ↦ .either h ?_
  have hnew := h.newNode (fun p hp ↦ findNode_none hnone hp) ⟨0, false, 0⟩
  refine (ensures_addNodeToBucket carried_true hnew trivial).bind fun r ⟨hr, _⟩ ↦ ?_
  split_ifs
  · exact hr.congr (bare_setGood ..)
  · exact hr

theorem sound_nodeQueried (sameAddress : Bool) (now : UInt32) :
    Sound none (s.nodeQueried id sameAddress now) := by
  rw [nodeQueried]
  split
  · split_ifs
    · exact h.congr (bare_setGood ..)
    · exact h
  split_ifs
  · exact h.congr (bare_setSelfGood ..)
  · exact h

theorem ensures_nodeInactive (sameAddress : Bool) (now : UInt32) :
    Gives (s.nodeInactive id sameAddress now) (Sound none) := by
  have ht : Sound none (s.setInactive id) := h.congr (bare_setInactive ..)
  refine .either h (.ite (fun hbad ↦ ht.deleteKnown ?_) fun _ ↦ ht)
  cases hfind : (s.setInactive id).findNode id with
  | none => simp [hfind] at hbad
  | some n => rfl

theorem ensures_nodeInvalid : Gives (s.nodeInvalid id) (Sound none) := by
  refine .ite (fun _ ↦ h) fun hsome ↦ h.deleteKnown ?_
  simpa [isSome_iff_ne_none] using hsome

theorem ensures_receiveTimeout (now : UInt32) : Gives (s.receiveTimeout now) (Sound none) := by
  have hbucket : (s.nodes.any fun n ↦ n.bucket.isNone) = false := by
    refine any_eq_false.mpr fun n hn ↦ ?_
    obtain ⟨b, -, hb, -⟩ := h.filed.placed (n.id, n.bucket) (mem_map_of_mem hn)
    simp [show n.bucket = some b from hb]
  rw [receiveTimeout, hbucket]
  refine h.congr ((bare_foldl_count _ _).trans ?_)
  simp [bare, Function.comp_def]

end

theorem ensures_step (e : Event) (h : Sound none s) : Ensures (· ≠ noCandidate) (step e s) (Sound none) := by
  cases e with
  | replied id sameAddress now => exact ensures_nodeReplied h sameAddress now
  | queried id sameAddress now => exact sound_nodeQueried h sameAddress now
  | inactive id sameAddress now => exact (ensures_nodeInactive h sameAddress now).always
  | invalid id => exact (ensures_nodeInvalid h).always
  | timeout now => exact (ensures_receiveTimeout h now).always

end Run

section Load

variable {s : DhtRouter} {id : HashString}

def ids (s : DhtRouter) : List HashString := s.nodes.map DhtNode.id

theorem map_fst_places (s : DhtRouter) : s.places.map Prod.fst = s.ids := by
  rw [places, List.map_map]
  rfl

theorem ids_map (s : DhtRouter) {f : DhtNode → DhtNode} (hf : ∀ n, (f n).id = n.id) :
    (s.nodes.map f).map DhtNode.id = s.ids := by
  rw [List.map_map]
  exact map_congr_left fun n _ ↦ hf n

theorem yields_deleteNode (id : HashString) (s : DhtRouter) : Yields (s.deleteNode id) fun t ↦ t.ids ⊆ s.ids := by
  have hfilter : (s.nodes.filter fun n ↦ n.id ≠ id).map DhtNode.id ⊆ s.nodes.map DhtNode.id :=
    (filter_sublist.map _).subset
  rw [deleteNode]
  split
  · exact not_false
  split
  · exact hfilter
  · exact (yields_true _).bind fun B _ ↦ hfilter

theorem ids_split (b : ℕ) (s : DhtRouter) : (s.split b).ids = s.ids := by
  rw [split, ids, (regions_link ..).known]
  refine ids_map s fun n ↦ ?_
  split_ifs <;> rfl

theorem splitBucket_ok {r : ℕ × DhtRouter} (h : s.splitBucket b id = .ok r) :
    r.2.buckets = (s.split b).buckets ∧ r.2.nodes = (s.split b).nodes := by
  rw [splitBucket] at h
  split at h
  · cases h
  · cases h
    exact ⟨rfl, rfl⟩

theorem carried_ids (l : List HashString) : Carried id fun t ↦ t.ids ⊆ l := by
  refine ⟨fun _ hs ↦ (yields_deleteNode ..).mono fun t ht ↦ List.Subset.trans ht hs, fun {s r b} hr _ hs ↦ ?_,
    fun {s n b} _ hs ↦ ?_⟩
  · have hids : r.2.ids = s.ids := (congrArg (map DhtNode.id) (splitBucket_ok hr).2).trans (ids_split b s)
    exact hids ▸ hs
  have hsame := ids_map s (f := fun n ↦ if n.id = id then { n with bucket := some b } else n) fun n ↦ by
    split_ifs <;> rfl
  exact fun y hy ↦ hs (hsame ▸ hy)

/-- The table is sound, and the nodes of the cache that are still to come are not in it. -/
def Loading (cache : List (HashString × UInt32)) (s : DhtRouter) : Prop :=
  Sound none s ∧ (cache.map Prod.fst).Nodup ∧ ∀ p ∈ cache, p.1 ∉ s.ids

theorem Loading.unknown {node : HashString × UInt32} {cache : List (HashString × UInt32)}
    (h : Loading (node :: cache) s) : ∀ p ∈ s.places, p.1 ≠ node.1 := by
  intro p hp he
  refine h.2.2 node mem_cons_self ?_
  rw [← map_fst_places, ← he]
  exact mem_map_of_mem hp

theorem ensures_load (now : UInt32) (node : HashString × UInt32) (cache : List (HashString × UInt32))
    (h : Loading (node :: cache) s) : Ensures (· ≠ noCandidate) (load now node s) (Loading cache) := by
  have hnew := h.1.newNode h.unknown (Quality.update now ⟨node.2, false, 0⟩)
  obtain ⟨hs, hnodup, hcache⟩ := h
  obtain ⟨hnode, hnodup⟩ := nodup_cons.mp hnodup
  have hids : (s.addNode node.1 (Quality.update now ⟨node.2, false, 0⟩)).ids = s.ids ++ [node.1] := map_append
  refine (ensures_addNodeToBucket (carried_ids _) hnew (List.Subset.refl _)).bind fun r ⟨hr, hsub⟩ ↦
    ⟨hr, hnodup, fun p hp hmem ↦ ?_⟩
  rcases mem_append.mp (hids ▸ hsub hmem) with hold | hnew
  · exact hcache p (mem_cons_of_mem _ hp) hold
  · exact hnode (mem_singleton.mp hnew ▸ mem_map_of_mem hp)

theorem ensures_run (id : HashString) (now : UInt32) (cache : Cache) (events : List Event) :
    Ensures (· ≠ noCandidate) (run id now cache events) (Sound none) := by
  have hload : Ensures (· ≠ noCandidate) (forEach (load now) cache.entries (fresh id)) (Loading []) :=
    ensures_forEach (fun node cache s h ↦ ensures_load now node cache h) cache.entries
      ⟨fresh_sound id, cache.nodup, fun _ _ ↦ not_mem_nil⟩
  exact hload.bind fun s hs ↦ ensures_forEach_inv (fun e s h ↦ ensures_step e h) events hs.1

end Load

structure Routes (s : DhtRouter) : Prop where
  /-- The buckets are contiguous ranges that fill the space of ids, in the order of the table. -/
  tiles : Tiles (fun b ↦ (s.buckets b).idBegin.value) (fun b ↦ (s.buckets b).idEnd.value) 0
    (s.routingTable.map Prod.snd) (2 ^ 160)
  keys : ∀ p ∈ s.routingTable, p.1 = (s.buckets p.2).idEnd
  /-- An id is in the range of one bucket, and this is the one that is found. -/
  found : ∀ id, ∃ b, s.findBucket id = some b ∧
    ∀ x ∈ s.routingTable.map Prod.snd, (s.buckets x).isInRange id = true ↔ x = b
  node : ∀ n ∈ s.nodes, n.bucket = s.findBucket n.id ∧ ∀ b ∈ n.bucket, n.id ∈ (s.buckets b).nodes
  held : ∀ b ∈ s.routingTable.map Prod.snd, (s.buckets b).nodes.Nodup ∧ (s.buckets b).nodes.length ≤ 8 ∧
    ∀ id ∈ (s.buckets b).nodes, (s.buckets b).isInRange id = true ∧ id ∈ s.nodes.map DhtNode.id
  /-- From the router's own bucket the parents lead through all buckets, and the children back. -/
  chain : ∃ rest, Linked s.buckets none (s.bucket :: rest) ∧ (s.bucket :: rest).Perm (s.routingTable.map Prod.snd)
  own : s.findBucket s.id = some s.bucket
  random : ∀ b ∈ s.routingTable.map Prod.snd, ∀ r : HashString,
    (s.buckets b).isInRange ((s.buckets b).getRandomId r) = true

section Routing

variable {s : DhtRouter}

theorem Covers.findBucket_eq (h : Covers s) {id : HashString} (hb : b ∈ s.refs)
    (hid : (s.buckets b).isInRange id = true) : s.findBucket id = some b := by
  obtain ⟨x, hx, hfind, hrange⟩ := h.findBucket id
  rw [hfind, h.unique hx hb hrange hid]

theorem Covers.isInRange_getRandomId (h : Covers s) (hb : b ∈ s.refs) (r : HashString) :
    (s.buckets b).isInRange ((s.buckets b).getRandomId r) = true := by
  obtain ⟨w, ha⟩ := h.aligned b hb
  exact DhtBucket.isInRange_iff.mpr (ha.load_randomBytes (r.length.trans (s.buckets b).idBegin.length.symm))

theorem Sound.routes (h : Sound none s) : Routes s := by
  refine ⟨h.covers.tiles, h.covers.keys, fun id ↦ ?_, fun n hn ↦ ?_, fun b hb ↦ ?_, h.chained,
    h.covers.findBucket_eq h.covers.own h.covers.ownRange, fun b hb r ↦ h.covers.isInRange_getRandomId hb r⟩
  · obtain ⟨b, hb, hfind, hrange⟩ := h.covers.findBucket id
    exact ⟨b, hfind, fun x hx ↦ ⟨fun hid ↦ h.covers.unique hx hb hid hrange, fun he ↦ he ▸ hrange⟩⟩
  · obtain ⟨b, hb, hbucket, hnode⟩ := h.filed.placed (n.id, n.bucket) (mem_map_of_mem hn)
    replace hbucket : n.bucket = some b := hbucket
    rw [h.covers.findBucket_eq hb (h.filed.held b hb n.id hnode).1, hbucket]
    exact ⟨rfl, fun x hx ↦ Option.mem_some_iff.mp hx ▸ hnode⟩
  refine ⟨h.filed.nodup b hb, h.filed.small b hb, fun id hid ↦ ?_⟩
  obtain ⟨hrange, hplace⟩ := h.filed.held b hb id hid
  refine ⟨hrange, ?_⟩
  have hmem := mem_map_of_mem (f := Prod.fst) hplace
  rwa [map_fst_places] at hmem

/-- Whatever the cache and the events, the table routes, and adding a node ends: with a result, or because no node of
a full bucket was last seen before the greatest time. -/
theorem run_routes (id : HashString) (now : UInt32) (cache : Cache) (events : List Event) :
    Ensures (fun e ↦ e ≠ .internalError "DhtBucket::find_candidate returned no node.") (run id now cache events)
      Routes :=
  (ensures_run id now cache events).mono fun _ h ↦ h.routes

end Routing

end DhtRouter

end LibTorrent
