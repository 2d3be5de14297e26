import LibTorrent.Download.PeerExchange
import Mathlib.Data.Multiset.OrderedMonoid

namespace LibTorrent

open Lib.ByteOrder Lib.Decimal Lib.Outcome Lib.SortedList List SocketAddressCompact

theorem SocketAddressCompact.less_iff (a b : SocketAddressCompact) : a.less b = true ↔
    a.addr.toNat < b.addr.toNat ∨ a.addr.toNat = b.addr.toNat ∧ a.port.toNat < b.port.toNat := by
  rw [less, Bool.or_eq_true, Bool.and_eq_true, decide_eq_true_iff, decide_eq_true_iff, beq_iff_eq, UInt32.lt_iff_toNat_lt,
    UInt16.lt_iff_toNat_lt, ← UInt32.toNat_inj]

theorem compares_less : Compares less where
  asymm := by
    intro a b h
    rw [Bool.eq_false_iff, Ne, less_iff]
    rw [less_iff] at h
    omega
  trans := by
    intro a b c h h'
    rw [Bool.eq_false_iff, Ne, less_iff] at *
    omega
  antisymm := by
    intro a b h h'
    rw [Bool.eq_false_iff, Ne, less_iff] at h h'
    have haddr : a.addr = b.addr := UInt32.toNat_inj.mp (by omega)
    have hport : a.port = b.port := UInt16.toNat_inj.mp (by rw [haddr] at h h'; omega)
    cases a
    exact congrArg₂ _ haddr hport

namespace PexState

variable {o : Endian} {r : PexRound} {rounds : List PexRound} {s s' : PexState} {states : List PexState}
  {current list list' added removed : List SocketAddressCompact}

structure Updated (current list list' added removed : List SocketAddressCompact) : Prop where
  sorted : Sorted less list'
  length_le : list'.length ≤ maxSizePexList
  le : (list' : Multiset SocketAddressCompact) ≤ current
  added : (added : Multiset SocketAddressCompact) = list' - list
  removed : (removed : Multiset SocketAddressCompact) = list - list'
  empty : list' = [] ↔ current = []

variable {α : Type}

theorem kept_add [DecidableEq α] {old cur new : Multiset α} (h : new ≤ cur - old) :
    old - (old - cur) + new ≤ cur ∧ old - (old - cur) + new - old = new ∧
      old - (old - (old - cur) + new) = old - cur := by
  have hcount := Multiset.le_iff_count.mp h
  simp only [Multiset.count_sub] at hcount
  refine ⟨Multiset.le_iff_count.mpr fun x ↦ ?_, Multiset.ext.mpr fun x ↦ ?_, Multiset.ext.mpr fun x ↦ ?_⟩
  all_goals
    have hx := hcount x
    simp only [Multiset.count_add, Multiset.count_sub]
    omega

theorem updateList_eq (hcurrent : Sorted less current) (hlist : Sorted less list) (hlen : list.length ≤ maxSizePexList) :
    ∃ list' added removed, updateList current list = .ok (list', added, removed) ∧
      Updated current list list' added removed := by
  have hadded := coe_setDifference compares_less hcurrent hlist
  have hremoved := coe_setDifference compares_less hlist hcurrent
  have hsorted : Sorted less (setDifference less list current) := hlist.sublist setDifference_sublist
  have hkept := coe_setDifference compares_less hlist hsorted
  rw [hremoved] at hkept
  have hall : (list : Multiset SocketAddressCompact) - (list - current) + (current - list) = current := by
    ext x
    simp only [Multiset.count_add, Multiset.count_sub]
    omega
  have hcard := congrArg Multiset.card hall
  rw [Multiset.card_add, ← hkept, ← hadded, Multiset.coe_card, Multiset.coe_card, Multiset.coe_card] at hcard
  have hkeptlen : (setDifference less list (setDifference less list current)).length ≤ list.length :=
    setDifference_sublist.length_le
  unfold updateList
  dsimp only
  split_ifs with hmany hshort
  · omega
  · generalize hn : (setDifference less current list).length - (current.length - maxSizePexList) = n
    generalize hfresh : (setDifference less current list).take n = fresh
    have hle : (fresh : Multiset SocketAddressCompact) ≤ current - list := by
      rw [← hadded, ← hfresh]
      exact (take_sublist n _).subperm
    have hcount : fresh.length = n := by
      rw [← hfresh, length_take]
      omega
    have hperm : (sort less (setDifference less list (setDifference less list current) ++ fresh) : Multiset SocketAddressCompact) =
        list - (list - current) + fresh := by
      rw [Multiset.coe_eq_coe.mpr sort_perm, ← Multiset.coe_add, hkept]
    have hlength : (sort less (setDifference less list (setDifference less list current) ++ fresh)).length =
        maxSizePexList := by
      rw [sort_perm.length_eq, length_append, hcount]
      omega
    obtain ⟨hsub, hnew, hgone⟩ := kept_add hle
    rw [← hperm] at hsub hnew hgone
    refine ⟨_, _, _, rfl, sort_sorted compares_less, hlength.le, hsub, hnew.symm, hremoved.trans hgone.symm, ?_⟩
    rw [← length_eq_zero_iff, ← length_eq_zero_iff, hlength]
    unfold maxSizePexList at hmany ⊢
    omega
  · exact ⟨current, _, _, rfl, hcurrent, Nat.le_of_not_lt hmany, le_rfl, hadded, hremoved, .rfl⟩

structure Ordered (s : PexState) : Prop where
  sorted : Sorted less s.list
  length_le : s.list.length ≤ maxSizePexList

def message (o : Endian) (added removed : List SocketAddressCompact) : Bytes :=
  if added = [] ∧ removed = [] then [] else (pexObject o added removed).encode 0

theorem doPeerExchange_eq (hs : s.Ordered) (hactive : r.isActive = true) :
    ∃ connections info list added removed, Updated (sort less (r.addresses o)) s.list list added removed ∧
      s.doPeerExchange o r = .ok (connections, info,
        if added ≠ [] ∨ list ≠ [] then ⟨list, message o added removed, message o list []⟩ else ⟨list, [], s.initial⟩) := by
  obtain ⟨list, added, removed, hupdate, hupdated⟩ :=
    updateList_eq (sort_sorted compares_less) hs.sorted hs.length_le
  have hlen := hs.length_le
  have hlen' := hupdated.length_le
  unfold maxSizePexList at hlen hlen'
  have hadded : added.length < 1000 := by
    have hcard := Multiset.card_le_card (hupdated.added.trans_le (Multiset.sub_le_self _ _))
    rw [Multiset.coe_card, Multiset.coe_card] at hcard
    omega
  have hremoved : removed.length < 1000 := by
    have hcard := Multiset.card_le_card (hupdated.removed.trans_le (Multiset.sub_le_self _ _))
    rw [Multiset.coe_card, Multiset.coe_card] at hcard
    omega
  refine ⟨(exchangePeers r.connections r.toggle.1 r.toggle.2).1, (exchangePeers r.connections r.toggle.1 r.toggle.2).2, list,
    added, removed, hupdated, ?_⟩
  rw [doPeerExchange, if_neg (by rw [hactive]; decide)]
  dsimp only
  rw [hupdate, ok_bind]
  dsimp only
  split_ifs with hany
  · rw [generateUtPexMessage_eq hadded hremoved, ok_bind, generateUtPexMessage_eq (by omega) (by decide), ok_bind]
    rfl
  · rfl

/-- What a round has to do: the list is in order and of connected peers, and the messages say what it is and how it has
changed. -/
structure Exchanged (o : Endian) (r : PexRound) (s s' : PexState) : Prop where
  sorted : Sorted less s'.list
  length_le : s'.list.length ≤ maxSizePexList
  connected : (s'.list : Multiset SocketAddressCompact) ≤ r.addresses o
  unchanged : s'.delta = [] ↔ (s'.list : Multiset SocketAddressCompact) = s.list
  delta : s'.delta ≠ [] → ∃ added dropped, readUtPexMessage o s'.delta = some (added, dropped) ∧
    (added : Multiset SocketAddressCompact) = s'.list - s.list ∧
    (dropped : Multiset SocketAddressCompact) = s.list - s'.list
  initial : s'.initial ≠ [] → readUtPexMessage o s'.initial = some (s'.list, [])

structure Settled (o : Endian) (s : PexState) : Prop extends Ordered s where
  initial : s.initial = message o s.list []

theorem message_eq_nil : message o added removed = [] ↔ added = [] ∧ removed = [] := by
  rw [message]
  split_ifs with h
  · exact iff_of_true rfl h
  · refine iff_of_false ?_ h
    exact cons_ne_nil _ _

theorem readUtPexMessage_message (hadded : added.length < 1000) (hremoved : removed.length < 1000)
    (h : message o added removed ≠ []) : readUtPexMessage o (message o added removed) = some (added, removed) := by
  have hany : ¬ (added = [] ∧ removed = []) := fun hnone ↦ h (message_eq_nil.mpr hnone)
  rw [message, if_neg hany]
  exact readUtPexMessage_encode hadded hremoved

theorem sub_eq_zero_and [DecidableEq α] {a b : Multiset α} : a - b = 0 ∧ b - a = 0 ↔ a = b := by
  rw [tsub_eq_zero_iff_le, tsub_eq_zero_iff_le]
  exact ⟨fun h ↦ le_antisymm h.1 h.2, fun h ↦ ⟨h.le, h.ge⟩⟩

theorem exchanged_of_ne_nil (h : Updated (sort less (r.addresses o)) s.list list added removed) (hs : s.Ordered) :
    Exchanged o r s ⟨list, message o added removed, message o list []⟩ := by
  have hlen := hs.length_le
  have hlen' := h.length_le
  unfold maxSizePexList at hlen hlen'
  have hadded := Multiset.card_le_card (h.added.trans_le (Multiset.sub_le_self _ _))
  have hremoved := Multiset.card_le_card (h.removed.trans_le (Multiset.sub_le_self _ _))
  rw [Multiset.coe_card, Multiset.coe_card] at hadded hremoved
  refine ⟨h.sorted, h.length_le, ?_, ?_, fun hdelta ↦ ?_, fun hinitial ↦ ?_⟩
  · exact h.le.trans_eq (Multiset.coe_eq_coe.mpr sort_perm)
  · rw [message_eq_nil, ← Multiset.coe_eq_zero, ← Multiset.coe_eq_zero, h.added, h.removed, sub_eq_zero_and]
  · exact ⟨added, removed, readUtPexMessage_message (by omega) (by omega) hdelta, h.added, h.removed⟩
  · exact readUtPexMessage_message (by omega) (by decide) hinitial

theorem doPeerExchange_exchanged (hs : s.Ordered) (hactive : r.isActive = true) :
    ∃ connections info s', s.doPeerExchange o r = .ok (connections, info, s') ∧ s'.Ordered ∧
      (s'.list = [] ↔ r.addresses o = []) ∧
      (s.Settled o → (Exchanged o r s s' ↔ (s.list ≠ [] → r.addresses o ≠ [])) ∧ (Exchanged o r s s' → s'.Settled o)) := by
  obtain ⟨connections, info, list, added, removed, h, hexchange⟩ := doPeerExchange_eq hs hactive
  have hempty : list = [] ↔ r.addresses o = [] := by
    rw [h.empty]
    exact ⟨fun hnone ↦ perm_nil.mp (hnone ▸ sort_perm.symm), fun hnone ↦ by rw [hnone]; rfl⟩
  refine ⟨connections, info, _, hexchange, ?_⟩
  by_cases hany : added ≠ [] ∨ list ≠ []
  · rw [if_pos hany]
    have hlist : list ≠ [] := by
      rintro rfl
      have hzero := h.added.trans (zero_tsub _)
      exact hany.elim (fun hne ↦ hne (Multiset.coe_eq_zero _ |>.mp hzero)) fun hne ↦ hne rfl
    refine ⟨⟨h.sorted, h.length_le⟩, hempty, fun _ ↦ ⟨iff_of_true (exchanged_of_ne_nil h hs) fun _ ↦ ?_, fun _ ↦ ?_⟩⟩
    · exact mt hempty.mpr hlist
    · exact ⟨⟨h.sorted, h.length_le⟩, rfl⟩
  · rw [if_neg hany]
    rw [not_or, not_not, not_not] at hany
    obtain ⟨-, rfl⟩ := hany
    refine ⟨⟨h.sorted, h.length_le⟩, hempty, fun hsettled ↦ ?_⟩
    have hnone := hempty.mp rfl
    by_cases hold : s.list = []
    · have hinitial : s.initial = [] := hsettled.initial.trans (message_eq_nil.mpr ⟨hold, rfl⟩)
      have hsettled' : Settled o ⟨[], [], s.initial⟩ := ⟨⟨h.sorted, h.length_le⟩, hinitial.trans (message_eq_nil.mpr ⟨rfl, rfl⟩).symm⟩
      refine ⟨iff_of_true ⟨h.sorted, h.length_le, Multiset.zero_le _, ?_, nofun, fun hne ↦ absurd hinitial hne⟩
        fun hne ↦ absurd hold hne, fun _ ↦ hsettled'⟩
      exact iff_of_true rfl (by rw [hold])
    have hnot : ¬ Exchanged o r s ⟨[], [], s.initial⟩ := by
      intro hex
      have hsame := hex.unchanged.mp rfl
      exact hold (Multiset.coe_eq_zero _ |>.mp hsame.symm)
    exact ⟨iff_of_false hnot fun hcond ↦ hcond hold hnone, fun hex ↦ absurd hex hnot⟩

def Faithful (o : Endian) : PexState → List PexRound → List PexState → Prop
  | _, [], [] => True
  | s, r :: rounds, s' :: states => Exchanged o r s s' ∧ Faithful o s' rounds states
  | _, _, _ => False

def learn (o : Endian) (view : Multiset SocketAddressCompact) (m : Bytes) : Multiset SocketAddressCompact :=
  match readUtPexMessage o m with
  | some (added, dropped) => view - dropped + added
  | none => view

/-- A peer that gets the initial message of one round and the delta of each later one knows the list. -/
def Informs (o : Endian) (states : List PexState) : Prop :=
  ∀ before s after t, states = before ++ s :: after → (s :: after).getLast? = some t →
    after.foldl (fun view s ↦ learn o view s.delta) (learn o 0 s.initial) = t.list

/-- Once a round has found a peer to be listed, every later one does. -/
def Lasting (o : Endian) (rounds : List PexRound) : Prop :=
  (rounds.map (PexRound.addresses o)).IsChain fun l l' ↦ l ≠ [] → l' ≠ []

instance (o : Endian) (rounds : List PexRound) : Decidable (Lasting o rounds) :=
  inferInstanceAs (Decidable (List.IsChain _ _))

theorem isChain_congr {l l' : List α} {ls : List (List α)} (h : l = [] ↔ l' = []) :
    (l :: ls).IsChain (fun l l' ↦ l ≠ [] → l' ≠ []) ↔ (l' :: ls).IsChain fun l l' ↦ l ≠ [] → l' ≠ [] := by
  cases ls with
  | nil => exact iff_of_true (isChain_singleton _) (isChain_singleton _)
  | cons l'' ls => rw [isChain_cons_cons, isChain_cons_cons, Ne, h]

theorem exchanges_eq (hs : s.Ordered) (hactive : ∀ r ∈ rounds, r.isActive = true) :
    ∃ states, exchanges o rounds s = .ok states ∧ (s.Settled o →
      (Faithful o s rounds states ↔
        (s.list :: rounds.map (PexRound.addresses o)).IsChain fun l l' ↦ l ≠ [] → l' ≠ []) ∧
      (Faithful o s rounds states → ∀ s' ∈ states, s'.Settled o)) := by
  induction rounds generalizing s with
  | nil => exact ⟨[], rfl, fun _ ↦ ⟨iff_of_true trivial (isChain_singleton _), nofun⟩⟩
  | cons r rounds ih =>
    obtain ⟨connections, info, s', hexchange, hordered, hempty, hsettled⟩ :=
      doPeerExchange_exchanged hs (hactive r mem_cons_self)
    obtain ⟨states, hrest, hstates⟩ := ih hordered fun q hq ↦ hactive q (mem_cons_of_mem r hq)
    refine ⟨s' :: states, ?_, fun h ↦ ?_⟩
    · rw [exchanges, hexchange, ok_bind]
      dsimp only
      rw [hrest, ok_bind]
    obtain ⟨hiff, hnext⟩ := hsettled h
    rw [Faithful, map_cons, isChain_cons_cons, ← hiff]
    refine ⟨and_congr_right fun hex ↦ ?_, fun ⟨hex, hfaithful⟩ ↦ forall_mem_cons.mpr ⟨hnext hex, ?_⟩⟩
    · rw [(hstates (hnext hex)).1, isChain_congr hempty]
    · exact (hstates (hnext hex)).2 hfaithful

theorem learn_delta (h : Exchanged o r s s') : learn o s.list s'.delta = s'.list := by
  by_cases hdelta : s'.delta = []
  · rw [hdelta]
    exact (h.unchanged.mp hdelta).symm
  obtain ⟨added, dropped, hread, hadded, hdropped⟩ := h.delta hdelta
  rw [learn, hread]
  dsimp only
  rw [hadded, hdropped]
  ext x
  simp only [Multiset.count_add, Multiset.count_sub]
  omega

theorem learn_initial (hs : s.Settled o) : learn o 0 s.initial = s.list := by
  have hlen := hs.length_le
  unfold maxSizePexList at hlen
  rw [hs.initial]
  by_cases hempty : message o s.list [] = []
  · rw [hempty, (message_eq_nil.mp hempty).1]
    rfl
  · rw [learn, readUtPexMessage_message (by omega) (by decide) hempty]
    exact (congrArg (· + (s.list : Multiset SocketAddressCompact)) (zero_tsub _)).trans (zero_add _)

theorem Faithful.foldl_learn {t : PexState} (h : Faithful o s rounds states) (ht : (s :: states).getLast? = some t) :
    states.foldl (fun view s ↦ learn o view s.delta) s.list = t.list := by
  induction states generalizing s rounds with
  | nil =>
    cases ht
    rfl
  | cons s' states ih =>
    cases rounds with
    | nil => exact absurd h id
    | cons r rounds =>
      rw [foldl_cons, learn_delta h.1]
      exact ih h.2 (by rwa [List.getLast?_cons_cons] at ht)

theorem Faithful.append {before after : List PexState} (h : Faithful o s rounds (before ++ s' :: after)) :
    ∃ rounds', Faithful o s' rounds' after := by
  induction before generalizing s rounds with
  | nil =>
    cases rounds with
    | nil => exact absurd h id
    | cons r rounds => exact ⟨rounds, h.2⟩
  | cons t before ih =>
    cases rounds with
    | nil => exact absurd h id
    | cons r rounds => exact ih h.2

theorem settled_fresh : fresh.Settled o := ⟨⟨.nil, Nat.zero_le _⟩, rfl⟩

theorem isChain_nil_cons {ls : List (List α)} :
    ([] :: ls).IsChain (fun l l' ↦ l ≠ [] → l' ≠ []) ↔ ls.IsChain fun l l' ↦ l ≠ [] → l' ≠ [] := by
  cases ls with
  | nil => exact iff_of_true (isChain_singleton _) .nil
  | cons l ls =>
    rw [isChain_cons_cons]
    exact and_iff_right fun h ↦ absurd rfl h

/-- Every run of rounds goes through, and all its lists and messages are as they have to be if and only if the list is
never emptied once it is not empty. -/
theorem exchanges_faithful_iff (o : Endian) (rounds : List PexRound) (hactive : ∀ r ∈ rounds, r.isActive = true) :
    ∃ states, exchanges o rounds fresh = .ok states ∧
      (Faithful o fresh rounds states ∧ Informs o states ↔ Lasting o rounds) := by
  obtain ⟨states, hrun, hstates⟩ := exchanges_eq (settled_fresh (o := o)).toOrdered hactive
  obtain ⟨hiff, hsettled⟩ := hstates settled_fresh
  refine ⟨states, hrun, ?_⟩
  have hlasting : Faithful o fresh rounds states ↔ Lasting o rounds := hiff.trans isChain_nil_cons
  rw [← hlasting]
  refine and_iff_left_of_imp fun hfaithful ↦ ?_
  rintro before s after t rfl ht
  obtain ⟨rounds', hafter⟩ := hfaithful.append
  rw [learn_initial (hsettled hfaithful s (mem_append_right before mem_cons_self))]
  exact hafter.foldl_learn ht

def roundOf (connections : List PexPeer) : PexRound := ⟨true, ⟨true, 0, 8⟩, 100, 0, 1000, connections⟩

def listeningPeer (addr : UInt32) : PexPeer := ⟨some addr, 6881, false, true, true, .zero⟩

theorem exchanges_faithful_iff_two : ∃ states,
    exchanges .little [roundOf [listeningPeer 1, listeningPeer 2], roundOf [listeningPeer 2]] fresh = .ok states ∧
      Faithful .little fresh [roundOf [listeningPeer 1, listeningPeer 2], roundOf [listeningPeer 2]] states := by
  obtain ⟨states, hrun, hiff⟩ := exchanges_faithful_iff .little
    [roundOf [listeningPeer 1, listeningPeer 2], roundOf [listeningPeer 2]] (by decide)
  exact ⟨states, hrun, (hiff.mpr (by decide)).1⟩

/-- The only peer leaves: the delta stays empty and the initial message goes on to list it. -/
theorem exchanges_not_faithful : ∃ states, exchanges .little [roundOf [listeningPeer 1], roundOf []] fresh = .ok states ∧
    ¬ (Faithful .little fresh [roundOf [listeningPeer 1], roundOf []] states ∧ Informs .little states) := by
  have hactive : ∀ r ∈ [roundOf [listeningPeer 1], roundOf []], r.isActive = true := by decide
  obtain ⟨states, hrun, hstates⟩ := exchanges_eq (settled_fresh (o := .little)).toOrdered hactive
  refine ⟨states, hrun, fun h ↦ ?_⟩
  have hchain := isChain_nil_cons.mp ((hstates settled_fresh).1.mp h.1)
  revert hchain
  decide

end PexState

end LibTorrent
