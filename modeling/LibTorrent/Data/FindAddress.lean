import LibTorrent.Data.MappedChunk

namespace LibTorrent

open List

def ChunkPart.hasAddress (ptr : ℕ) (part : ChunkPart) : Bool := part.begin ≤ ptr ∧ ptr < part.begin + part.size

def MappedChunk.findAddress (ptr : ℕ) (c : MappedChunk) : Option ℕ := c.parts.findIdx? (·.hasAddress ptr)

/-- What `find_address` comes to: a node and a part, `end()`, or an iterator that was moved past the end. -/
inductive AddressResult
  | found (node part : ℕ)
  | atEnd
  | pastEnd
  deriving DecidableEq

namespace ChunkList

/-- `find_address` from node `i` on, with the nodes it looks into. A node without a chunk is not valid. -/
def findAddress (ptr : ℕ) : ℕ → List (Option MappedChunk) → List ℕ × AddressResult
  | _, [] => ([], .atEnd)
  | i, none :: nodes => findAddress ptr (i + 1) nodes
  | i, some c :: nodes =>
    match c.findAddress ptr, nodes with
    | some part, _ => ([i], .found i part)
    -- The loop advances once more after the `first++` in its body.
    | none, [] => ([i], .pastEnd)
    | none, _ :: nodes => (i :: (findAddress ptr (i + 2) nodes).1, (findAddress ptr (i + 2) nodes).2)

structure FindsAddress (ptr i : ℕ) (nodes : List (Option MappedChunk)) (r : List ℕ × AddressResult) : Prop where
  holds : ∀ j k, r.2 = .found j k → ∃ d c part, j = i + d ∧ nodes[d]? = some (some c) ∧ c.parts[k]? = some part ∧
    part.hasAddress ptr = true
  misses : r.2 = .atEnd → ∀ c, some c ∈ nodes → ∀ part ∈ c.parts, part.hasAddress ptr = false
  inside : r.2 ≠ .pastEnd
  examines : ∀ d c, nodes[d]? = some (some c) → (∀ j k, r.2 = .found j k → i + d ≤ j) → i + d ∈ r.1

/-- Before the first chunk with the address, a chunk is followed by a node without one. -/
def Spaced (ptr : ℕ) : List (Option MappedChunk) → Prop
  | [] => True
  | none :: nodes => Spaced ptr nodes
  | some c :: nodes => c.findAddress ptr = none → nodes.head? = some none ∧ Spaced ptr nodes

variable {ptr i : ℕ} {nodes : List (Option MappedChunk)} {n : Option MappedChunk} {examined : List ℕ}
  {a : AddressResult}

theorem findsAddress_cons (hnode : ∀ c ∈ n, c.findAddress ptr = none) :
    FindsAddress ptr i (n :: nodes) (n.toList.map (fun _ ↦ i) ++ examined, a) ↔
      FindsAddress ptr (i + 1) nodes (examined, a) := by
  constructor
  · rintro ⟨hholds, hmisses, hinside, hexamines⟩
    refine ⟨fun j k hj ↦ ?_, fun he c hc ↦ hmisses he c (mem_cons_of_mem _ hc), hinside, fun d c hd hle ↦ ?_⟩
    · obtain ⟨d, c, part, rfl, hd, hk, hpart⟩ := hholds j k hj
      cases d with
      | zero =>
        have hfind : c.findAddress ptr = none := hnode c (Option.some.inj hd)
        exact absurd hpart (by simp [findIdx?_eq_none_iff.mp hfind part (mem_of_getElem? hk)])
      | succ d => exact ⟨d, c, part, by omega, hd, hk, hpart⟩
    have hmem := hexamines (d + 1) c hd fun j k hj ↦ by have := hle j k hj; omega
    rcases mem_append.mp hmem with hi | hi
    · obtain ⟨_, _, hi⟩ := mem_map.mp hi
      omega
    · rwa [show i + 1 + d = i + (d + 1) by omega]
  · rintro ⟨hholds, hmisses, hinside, hexamines⟩
    refine ⟨fun j k hj ↦ ?_, fun he c hc ↦ ?_, hinside, fun d c hd hle ↦ mem_append.mpr ?_⟩
    · obtain ⟨d, c, part, rfl, hd, hk, hpart⟩ := hholds j k hj
      exact ⟨d + 1, c, part, by omega, hd, hk, hpart⟩
    · rcases mem_cons.mp hc with rfl | hc
      · exact findIdx?_eq_none_iff.mp (hnode c rfl)
      · exact hmisses he c hc
    cases d with
    | zero => exact .inl (by simp [Option.some.inj hd])
    | succ d =>
      rw [show i + (d + 1) = i + 1 + d by omega] at hle ⊢
      exact .inr (hexamines d c hd hle)

theorem le_findAddress (ptr i : ℕ) (nodes : List (Option MappedChunk)) :
    (∀ j ∈ (findAddress ptr i nodes).1, i ≤ j) ∧ ∀ j k, (findAddress ptr i nodes).2 = .found j k → i ≤ j := by
  fun_induction findAddress ptr i nodes with
  | case1 => simp
  | case2 i nodes ih => exact ⟨fun j hj ↦ by have := ih.1 j hj; omega, fun j k hj ↦ by have := ih.2 j k hj; omega⟩
  | case3 | case4 => simp
  | case5 i c x nodes hnone ih =>
    refine ⟨fun j hj ↦ ?_, fun j k hj ↦ ?_⟩
    · rcases mem_cons.mp hj with rfl | hj
      · rfl
      · have := ih.1 j hj
        omega
    · have := ih.2 j k hj
      omega

/-- The address is found, every chunk is looked into and the iterator stays in the list exactly for nodes that are spaced. -/
theorem findsAddress_iff (ptr i : ℕ) (nodes : List (Option MappedChunk)) :
    FindsAddress ptr i nodes (findAddress ptr i nodes) ↔ Spaced ptr nodes := by
  fun_induction findAddress ptr i nodes with
  | case1 => exact iff_of_true ⟨nofun, nofun, nofun, nofun⟩ trivial
  | case2 i nodes ih => exact (findsAddress_cons (by simp)).trans ih
  | case3 i c nodes part hfind =>
    refine iff_of_true ⟨fun j k hj ↦ ?_, nofun, nofun, fun d c' hd hle ↦ ?_⟩ fun hno ↦ absurd (hfind.symm.trans hno) nofun
    · cases hj
      obtain ⟨hk, hpart, -⟩ := findIdx?_eq_some_iff_getElem.mp hfind
      exact ⟨0, c, _, rfl, rfl, getElem?_eq_getElem hk, hpart⟩
    · have hzero := hle i part rfl
      exact mem_singleton.mpr (by omega)
  | case4 i c hnone => exact iff_of_false (fun hf ↦ hf.inside rfl) fun hs ↦ absurd (hs hnone).1 nofun
  | case5 i c node nodes hnone ih =>
    refine (findsAddress_cons fun _ hc ↦ Option.some.inj hc ▸ hnone).trans ?_
    cases node with
    | none =>
      refine (findsAddress_cons (by simp)).trans (ih.trans ?_)
      exact ⟨fun hs _ ↦ ⟨rfl, hs⟩, fun hs ↦ (hs hnone).2⟩
    | some c' =>
      obtain ⟨hexamined, hfound⟩ := le_findAddress ptr (i + 2) nodes
      refine iff_of_false (fun hf ↦ ?_) fun hs ↦ absurd (hs hnone).1 nofun
      have hmem := hf.examines 0 c' rfl fun j k hj ↦ (Nat.le_succ _).trans (hfound j k hj)
      exact absurd (hexamined _ hmem) (by omega)

def pageAt (begin : ℕ) : MappedChunk := MappedChunk.empty.pushBack begin 4096 (by decide) nofun

/-- The second of two chunks in a row is not looked into, and behind a chunk at the end the iterator leaves the list. -/
theorem findAddress_skips :
    ¬ FindsAddress 8192 0 [some (pageAt 4096), some (pageAt 8192)] (findAddress 8192 0 [some (pageAt 4096), some (pageAt 8192)]) ∧
      (findAddress 8192 0 [some (pageAt 4096)]).2 = .pastEnd := by
  refine ⟨fun hf ↦ ?_, by decide⟩
  have hno := hf.misses (by decide) (pageAt 8192) (by simp) ⟨0, 8192, 4096⟩ (by decide)
  exact absurd hno (by decide)

end ChunkList

end LibTorrent
