import LibTorrent.Lib.ByteOrder
import LibTorrent.Lib.Outcome

namespace LibTorrent

open Lib.ByteOrder Lib.Decimal

inductive Family
  | inet
  | inet6
  deriving DecidableEq

def Family.other : Family → Family
  | .inet => .inet6
  | .inet6 => .inet

def Family.compactSize : Family → ℕ
  | .inet => 6
  | .inet6 => 18

/-- The function that the router calls with a reply: `process_connect` or `process_announce`. -/
inductive Awaited
  | connect
  | announce
  deriving DecidableEq

structure FamilyState where
  transactionId : ℕ := 0
  connectionId : ℕ := 0
  packetSent : Bool := false
  awaited : Awaited := .connect

/-- The ids that `connect_unsafe` gives to connections. -/
def TransactionId : Type := { id : ℕ // id ≠ 0 ∧ id < 2 ^ 32 }

/-- The names of errors, as `errno_enum` and `gai_enum_error` give them. -/
inductive UdpError
  | errno (name : Bytes)
  | gai (name : Bytes)
  | unknown

/-- What `try_write` comes to: the datagram is sent, stays queued, or the connection is gone. -/
inductive Writing
  | sent
  | again
  | failed (e : UdpError)

def Writing.isFailed : Writing → Bool
  | .failed _ => true
  | _ => false

/-- A report to the main thread, by `m_slot_success` or `m_slot_failure`. -/
inductive Report
  | success (l : List Bytes)
  | failure (msg : Bytes)

def Report.isSuccess : Report → Bool
  | .success _ => true
  | .failure _ => false

/-- A tracker, with the report in the callback queue of the main thread that `remove_events` can still take back, the
reports that the main thread has received, and what was given to `m_slot_new_peers`. -/
structure TrackerUdp where
  hostname : Bytes
  port : ℕ
  family : Family → FamilyState
  stopped : Bool
  startingRequest : Bool
  requesting : Bool
  disownable : Bool
  queued : Option Report
  reports : List Report
  newPeers : List (List Bytes)

namespace TrackerUdp

def live (t : TrackerUdp) (f : Family) : Bool := (t.family f).transactionId ≠ 0

def outstanding (t : TrackerUdp) : Bool := t.live .inet || t.live .inet6

variable (f : Family)

def setFamily (s : FamilyState) (t : TrackerUdp) : TrackerUdp :=
  { t with family := Function.update t.family f s }

variable (t : TrackerUdp)

def updateRequestingState : TrackerUdp :=
  { t with
    startingRequest := false
    requesting := t.outstanding
    disownable := t.stopped && ((t.family .inet).packetSent || (t.family .inet6).packetSent) }

def removeEvents : TrackerUdp := { t with queued := none }

def slot (r : Report) (t : TrackerUdp) : TrackerUdp := { t with queued := some r }

def deliver : TrackerUdp := { t with queued := none, reports := t.reports ++ t.queued.toList }

/-- The ids of a family are reset, its `packet_sent` is not. -/
def resetFamily : TrackerUdp :=
  t.setFamily f { t.family f with transactionId := 0, connectionId := 0 }

def resetFamilyWithError (msg : Bytes) (t : TrackerUdp) : TrackerUdp :=
  if t.live f then
    let t := t.resetFamily f
    if t.outstanding then t else t.removeEvents.updateRequestingState.slot (.failure msg)
  else t

def processError (msg : Bytes) (t : TrackerUdp) : TrackerUdp :=
  t.resetFamilyWithError f (ascii "tracker message: " ++ if msg = [] then ascii "empty error message" else msg)

def handleSetupError (msg : String) (t : TrackerUdp) : Except String TrackerUdp :=
  if t.outstanding then
    .error "TrackerUdp::handle_setup_error() called but inet/inet6 transaction id is not 0."
  else .ok (t.removeEvents.updateRequestingState.slot (.failure (ascii msg)))

def handleParseError (msg : String) (t : TrackerUdp) : TrackerUdp :=
  t.resetFamilyWithError f (ascii "parse error: " ++ ascii msg)

def UdpError.text : UdpError → Bytes
  | .errno name => name
  | .gai name => name
  | .unknown => ascii "unknown error"

def handleUdpError (e : UdpError) (t : TrackerUdp) : TrackerUdp :=
  t.resetFamilyWithError f (ascii "network error: " ++ UdpError.text e)

/-- A tracker that is to send an event: what `sa_lookup_numeric` makes of the hostname, which routers are open, the ids
they give, what becomes of a datagram that is sent at once, and whether the main thread comes to its callbacks before
`connect` returns. -/
structure Setup where
  hostname : Bytes
  port : ℕ
  family : Family → FamilyState
  stopped : Bool
  numeric : Option Family
  isOpen : Family → Bool
  id : Family → TransactionId
  writing : Writing
  delivers : Bool

/-- `UdpRouter::connect`, with the functions that `connect_family` gives to it. -/
def connect (c : Setup) (f : Family) (t : TrackerUdp) : TrackerUdp :=
  if !c.isOpen f then t
  else
    let connected := t.setFamily f { t.family f with transactionId := (c.id f).val, awaited := .connect }
    match c.numeric with
    | none => connected
    | some g =>
      if g ≠ f then t
      else
        match c.writing with
        | .failed e =>
          let t := connected.handleUdpError f e
          if c.delivers then t.deliver else t
        | _ => connected

def connectFamily (c : Setup) (f : Family) (t : TrackerUdp) : Except String TrackerUdp :=
  if t.live f then .error "TrackerUdp::connect_family() called but transaction id is not 0."
  else .ok (t.connect c f)

def closeDirectly : TrackerUdp := { t with family := fun _ ↦ {} }

def sendEvent (c : Setup) (t : TrackerUdp) : Except String TrackerUdp := do
  let t := t.closeDirectly
  let t := { t with stopped := c.stopped }
  if t.hostname = [] then t.handleSetupError "cannot send tracker event, hostname is empty"
  else if t.port = 0 then t.handleSetupError "cannot send tracker event, port is 0"
  else do
    let t ← t.connectFamily c .inet
    let t ← t.connectFamily c .inet6
    if t.outstanding then .ok t.updateRequestingState
    else t.handleSetupError "cannot send tracker event, no available network protocol(s)"

def read32 (b : Bytes) (n : ℕ) : ℕ := load .big ((b.drop n).take 4)

/-- The results of `process_header`: -1, 0 and 1. -/
inductive Header
  | error
  | other
  | accepted

def processHeader (action : ℕ) (b : Bytes) (t : TrackerUdp) : Header × TrackerUdp :=
  if b.length < 8 then (.other, t)
  else if read32 b 4 ≠ (t.family f).transactionId then (.other, t)
  else if read32 b 0 = 3 then (.error, t.processError f (b.drop 8))
  else if read32 b 0 ≠ action then (.other, t)
  else (.accepted, t)

def processAnnouncePacketSent : TrackerUdp :=
  let t := t.setFamily f { t.family f with packetSent := true }
  { t with disownable := t.disownable || t.stopped }

/-- The connection is given a new id for the announce, and its datagram is sent at once. -/
def transfer (id : TransactionId) (w : Writing) (t : TrackerUdp) : TrackerUdp :=
  let t := t.setFamily f { t.family f with transactionId := id.val, awaited := .announce }
  match w with
  | .sent => t.processAnnouncePacketSent f
  | .again => t
  | .failed e => t.handleUdpError f e

def processConnect (b : Bytes) (id : TransactionId) (w : Writing) (t : TrackerUdp) : TrackerUdp :=
  match t.processHeader f 0 b with
  | (.accepted, t) =>
    if b.length < 16 then t.handleParseError f "invalid connect response size"
    else
      let connectionId := load .big ((b.drop 8).take 8)
      let t := t.setFamily f { t.family f with connectionId := connectionId }
      if connectionId = 0 then t.handleParseError f "connection id is 0" else t.transfer f id w
  | (_, t) => t

/-- The addresses behind the header, without the rest that is not a whole one. -/
def addressList (b : Bytes) : List Bytes :=
  (List.range ((b.length - 20) / f.compactSize)).map fun i ↦ (b.drop (20 + i * f.compactSize)).take f.compactSize

def processAnnounce (b : Bytes) (t : TrackerUdp) : TrackerUdp :=
  match t.processHeader f 1 b with
  | (.accepted, t) =>
    if b.length < 20 then t.handleParseError f "invalid announce response size"
    else
      let t := t.resetFamily f
      if t.outstanding then { t with newPeers := t.newPeers ++ [addressList f b] }
      else t.removeEvents.updateRequestingState.slot (.success (addressList f b))
  | (_, t) => t

/-- What the routers do for a connection of the tracker: its announce is sent, it fails in the resolver, in a write or
by a timeout, or a datagram comes from its address, with what becomes of a connection that is transferred then. -/
inductive Event
  | packetSent (f : Family)
  | failed (f : Family) (e : UdpError)
  | read (f : Family) (b : Bytes) (id : TransactionId) (w : Writing)
  | deliver

def step : Event → TrackerUdp → TrackerUdp
  | .packetSent f, t => if t.live f && (t.family f).awaited = .announce then t.processAnnouncePacketSent f else t
  | .failed f e, t => if t.live f then t.handleUdpError f e else t
  | .read f b id w, t =>
    -- The router looks the connection up by the transaction id of the datagram.
    if t.live f && 8 ≤ b.length && read32 b 4 = (t.family f).transactionId then
      match (t.family f).awaited with
      | .connect => t.processConnect f b id w
      | .announce => t.processAnnounce f b
    else t
  | .deliver, t => t.deliver

def start (c : Setup) : TrackerUdp := ⟨c.hostname, c.port, c.family, c.stopped, true, false, false, none, [], []⟩

end TrackerUdp

open Bool Function Lib.Outcome

namespace TrackerUdp

/-- What the reports depend on: the outstanding families, and which reports are successes. -/
@[ext] structure View where
  live : Family → Bool
  queued : Option Bool
  reports : List Bool

namespace View

def outstanding (v : View) : Bool := v.live .inet || v.live .inet6

def drop (f : Family) (v : View) : View := { v with live := update v.live f false }

def finish (f : Family) (answered : Bool) (v : View) : View :=
  if (v.drop f).outstanding then v.drop f else { v.drop f with queued := some answered }

/-- No report while a family is outstanding, and one after that, a success if some family has had a valid reply. -/
def Reported (answered : Bool) (v : View) : Prop :=
  if v.outstanding then v.queued = none ∧ v.reports = [] else v.reports ++ v.queued.toList = [answered]

theorem outstanding_drop (v : View) : (v.drop f).outstanding = v.live f.other := by
  cases f <;> simp [drop, outstanding, Family.other]

theorem live_finish (v : View) (answered : Bool) : (v.finish f answered).live = update v.live f false := by
  rw [finish]
  split_ifs <;> rfl

theorem reported_finish {v : View} {b answered : Bool} (h : v.Reported b) (hlive : v.live f = true) :
    (v.finish f answered).Reported (b || answered) ↔ (v.live f.other = false → b = true → answered = true) := by
  have hout : v.outstanding = true := by cases f <;> simp [outstanding, hlive]
  rw [Reported, if_pos hout] at h
  rw [finish, ← outstanding_drop]
  split_ifs with hlast
  · rw [Reported, if_pos hlast, hlast]
    exact iff_of_true h nofun
  have hlast' : ({ v.drop f with queued := some answered } : View).outstanding = false := eq_false_iff.mpr hlast
  have hreports : (v.drop f).reports = [] := h.2
  rw [Reported, hlast', hreports]
  cases b <;> cases answered <;> simp [hlast]

theorem reported_deliver {v : View} {b : Bool} :
    Reported b ⟨v.live, none, v.reports ++ v.queued.toList⟩ ↔ v.Reported b := by
  have hout : (⟨v.live, none, v.reports ++ v.queued.toList⟩ : View).outstanding = v.outstanding := rfl
  rw [Reported, Reported, hout]
  cases v.queued <;> simp

end View

variable {t : TrackerUdp} {f : Family}

def view (t : TrackerUdp) : View := ⟨t.live, t.queued.map Report.isSuccess, t.reports.map Report.isSuccess⟩

theorem view_setFamily (f : Family) (s : FamilyState) (t : TrackerUdp) :
    (t.setFamily f s).view = { t.view with live := update t.live f (decide (s.transactionId ≠ 0)) } := by
  ext g : 2
  · by_cases h : g = f <;> simp [view, live, setFamily, h]
  · rfl
  · rfl

theorem view_setFamily_same {s : FamilyState} (h : decide (s.transactionId ≠ 0) = t.live f) :
    (t.setFamily f s).view = t.view := by
  rw [view_setFamily, h, update_eq_self]
  rfl

theorem view_resetFamily (r : Report) : (if (t.resetFamily f).outstanding then t.resetFamily f
      else (t.resetFamily f).removeEvents.updateRequestingState.slot r).view = t.view.finish f r.isSuccess := by
  have hview : (t.resetFamily f).view = t.view.drop f := view_setFamily f _ t
  have hout : (t.resetFamily f).outstanding = (t.view.drop f).outstanding := congrArg View.outstanding hview
  rw [View.finish, hout, ← hview]
  split_ifs <;> rfl

theorem view_resetFamilyWithError (msg : Bytes) (h : t.live f = true) :
    (t.resetFamilyWithError f msg).view = t.view.finish f false := by
  rw [resetFamilyWithError, if_pos h]
  exact view_resetFamily (.failure msg)

theorem view_transfer (id : TransactionId) (w : Writing) (h : t.live f = true) :
    (t.transfer f id w).view = if w.isFailed then t.view.finish f false else t.view := by
  have hset : (t.setFamily f { t.family f with transactionId := id.val, awaited := .announce }).view = t.view :=
    view_setFamily_same ((decide_eq_true id.property.1).trans h.symm)
  cases w with
  | sent =>
    have hsent : ∀ u : TrackerUdp, (u.processAnnouncePacketSent f).view = u.view := fun u ↦ view_setFamily_same rfl
    exact (hsent _).trans hset
  | again => exact hset
  | failed e => exact hset ▸ view_resetFamilyWithError _ ((congrFun (congrArg View.live hset) f).trans h)

def answers : Event → TrackerUdp → Bool
  | .read f b _ _, t =>
    t.live f && read32 b 4 = (t.family f).transactionId && (t.family f).awaited = .announce && read32 b 0 = 1 &&
      20 ≤ b.length
  | _, _ => false

/-- An error packet, a reply to the announce, or a reply to the connect that is malformed or that the announce cannot be
sent after. -/
def closes (b : Bytes) (w : Writing) : Awaited → Bool
  | .connect =>
    read32 b 0 = 3 || read32 b 0 = 0 && (b.length < 16 || load .big ((b.drop 8).take 8) = 0 || w.isFailed)
  | .announce => read32 b 0 = 3 || read32 b 0 = 1

/-- The family whose part of the announce an event ends. -/
def ends : Event → TrackerUdp → Option Family
  | .failed f _, t => if t.live f then some f else none
  | .read f b _ w, t =>
    if (t.live f && 8 ≤ b.length && read32 b 4 = (t.family f).transactionId) && closes b w (t.family f).awaited then some f
    else none
  | _, _ => none

theorem processHeader_eq {b : Bytes} {action : ℕ} (hlen : 8 ≤ b.length) (hid : read32 b 4 = (t.family f).transactionId) :
    t.processHeader f action b = if read32 b 0 = 3 then (.error, t.processError f (b.drop 8))
      else if read32 b 0 ≠ action then (.other, t) else (.accepted, t) := by
  rw [processHeader, if_neg (Nat.not_lt.mpr hlen), if_neg (not_not.mpr hid)]

theorem view_processConnect {b : Bytes} (id : TransactionId) (w : Writing) (h : t.live f = true) (hlen : 8 ≤ b.length)
    (hid : read32 b 4 = (t.family f).transactionId) :
    (t.processConnect f b id w).view = if closes b w .connect then t.view.finish f false else t.view := by
  have hset : (t.setFamily f { t.family f with connectionId := load .big ((b.drop 8).take 8) }).view = t.view :=
    view_setFamily_same rfl
  have hlive := (congrFun (congrArg View.live hset) f).trans h
  rw [processConnect, processHeader_eq hlen hid, closes]
  by_cases herror : read32 b 0 = 3
  · rw [if_pos herror, decide_eq_true herror]
    exact view_resetFamilyWithError _ h
  by_cases haction : read32 b 0 ≠ 0
  · rw [if_neg herror, if_pos haction, decide_eq_false herror, decide_eq_false haction]
    rfl
  rw [if_neg herror, if_neg haction, decide_eq_false herror, decide_eq_true (not_not.mp haction), Bool.false_or, Bool.true_and]
  dsimp only
  by_cases hshort : b.length < 16
  · rw [if_pos hshort, decide_eq_true hshort]
    exact view_resetFamilyWithError _ h
  by_cases hzero : load .big ((b.drop 8).take 8) = 0
  · rw [if_neg hshort, if_pos hzero, decide_eq_false hshort, decide_eq_true hzero]
    exact hset ▸ view_resetFamilyWithError _ hlive
  rw [if_neg hshort, if_neg hzero, decide_eq_false hshort, decide_eq_false hzero, view_transfer id w hlive, hset]
  rfl

theorem view_processAnnounce {b : Bytes} (w : Writing) (h : t.live f = true) (hlen : 8 ≤ b.length)
    (hid : read32 b 4 = (t.family f).transactionId) : (t.processAnnounce f b).view =
      if closes b w .announce then t.view.finish f (read32 b 0 = 1 && 20 ≤ b.length) else t.view := by
  rw [processAnnounce, processHeader_eq hlen hid, closes]
  by_cases herror : read32 b 0 = 3
  · rw [if_pos herror, herror]
    exact view_resetFamilyWithError _ h
  by_cases haction : read32 b 0 ≠ 1
  · rw [if_neg herror, if_pos haction, decide_eq_false herror, decide_eq_false haction]
    rfl
  rw [if_neg herror, if_neg haction, decide_eq_true (not_not.mp haction), Bool.or_true, if_pos rfl, Bool.true_and]
  dsimp only
  split_ifs with hshort hout
  · rw [decide_eq_false (Nat.not_le_of_lt hshort)]
    exact view_resetFamilyWithError _ h
  all_goals
    have hview := view_resetFamily (t := t) (f := f) (.success (addressList f b))
    rw [decide_eq_true (Nat.le_of_not_lt hshort)]
  · rw [if_pos hout] at hview
    exact hview
  · rw [if_neg hout] at hview
    exact hview

/-- What an event other than the delivery of a report does: it ends a family, or changes nothing. -/
inductive Follows (e : Event) (t : TrackerUdp) : Prop
  | ended (f : Family) (hends : ends e t = some f) (hlive : t.live f = true)
    (hview : (step e t).view = t.view.finish f (answers e t))
  | kept (hends : ends e t = none) (hno : answers e t = false) (hview : (step e t).view = t.view)

theorem follows_step (e : Event) (t : TrackerUdp) : e = .deliver ∨ Follows e t := by
  cases e with
  | packetSent f =>
    refine .inr (.kept rfl rfl ?_)
    rw [step]
    split_ifs
    · exact view_setFamily_same rfl
    · rfl
  | failed f e =>
    by_cases h : t.live f = true
    · exact .inr (.ended f (if_pos h) h (by rw [step, if_pos h]; exact view_resetFamilyWithError _ h))
    · exact .inr (.kept (if_neg h) rfl (by rw [step, if_neg h]))
  | read f b id w =>
    right
    by_cases hcond : (t.live f && 8 ≤ b.length && read32 b 4 = (t.family f).transactionId) = true
    · obtain ⟨⟨h, hlen⟩, hid⟩ : (t.live f = true ∧ 8 ≤ b.length) ∧ read32 b 4 = (t.family f).transactionId := by
        simpa using hcond
      have hstep : (step (.read f b id w) t).view = if closes b w (t.family f).awaited then
          t.view.finish f (answers (.read f b id w) t) else t.view := by
        rw [step, if_pos hcond, answers, h, decide_eq_true hid]
        cases (t.family f).awaited with
        | connect => exact view_processConnect id w h hlen hid
        | announce => exact view_processAnnounce w h hlen hid
      cases hcloses : closes b w (t.family f).awaited with
      | true =>
        rw [hcloses] at hstep
        exact .ended f (by rw [ends, hcond, hcloses]; rfl) h hstep
      | false =>
        rw [hcloses] at hstep
        refine .kept (by rw [ends, hcloses, Bool.and_false]; rfl) (eq_false_iff.mpr fun hvalid ↦ ?_) hstep
        simp only [answers, and_eq_true, decide_eq_true_iff] at hvalid
        rw [hvalid.1.1.2, closes, hvalid.1.2] at hcloses
        cases hcloses
    · refine .kept ?_ (eq_false_iff.mpr fun hvalid ↦ hcond ?_) (by rw [step, if_neg hcond])
      · rw [ends, eq_false_iff.mpr hcond]
        rfl
      simp only [answers, and_eq_true, decide_eq_true_iff] at hvalid ⊢
      exact ⟨⟨hvalid.1.1.1.1, by omega⟩, hvalid.1.1.1.2⟩
  | deliver => exact .inl rfl

/-- A step, with a note whether some family has had a valid reply to its announce. -/
def watch (e : Event) (p : TrackerUdp × Bool) : Except String (TrackerUdp × Bool) :=
  .ok (step e p.1, p.2 || answers e p.1)

def Reported (p : TrackerUdp × Bool) : Prop := p.1.view.Reported p.2

/-- A family is not the last to end without a valid reply, if the other one has had one. -/
def Keeps (e : Event) (p : TrackerUdp × Bool) : Prop :=
  ∀ f, ends e p.1 = some f → p.1.live f.other = false → p.2 = true → answers e p.1 = true

theorem view_deliver (t : TrackerUdp) :
    (step .deliver t).view = ⟨t.live, none, t.view.reports ++ t.view.queued.toList⟩ := by
  simp only [step, deliver, view, Option.map_none, List.map_append]
  cases t.queued <;> rfl

theorem live_step (e : Event) (t : TrackerUdp) (g : Family) :
    (step e t).live g = (t.live g && decide (ends e t ≠ some g)) := by
  change (step e t).view.live g = _
  obtain rfl | ⟨f, hends, hlive, hview⟩ | ⟨hends, -, hview⟩ := follows_step e t
  · simp [view_deliver, ends]
  · rw [hview, View.live_finish, hends, update_apply]
    by_cases hg : g = f
    · simp [hg]
    · simp [hg, Ne.symm hg, view]
  · rw [hview, hends]
    simp [view]

theorem reported_watch (e : Event) (p : TrackerUdp × Bool) (h : Reported p) :
    Reported (step e p.1, p.2 || answers e p.1) ↔ Keeps e p := by
  obtain ⟨t, b⟩ := p
  obtain rfl | ⟨f, hends, hlive, hview⟩ | ⟨hends, hno, hview⟩ := follows_step e t
  · refine iff_of_true ?_ fun f hf ↦ absurd hf nofun
    rw [Reported, view_deliver]
    exact (View.reported_deliver).mpr ((Bool.or_false b).symm ▸ h)
  · rw [Reported, hview, Keeps, hends]
    refine (View.reported_finish h hlive).trans ⟨fun hkeep g hg ↦ ?_, fun hkeep ↦ hkeep f rfl⟩
    cases hg
    exact hkeep
  · refine iff_of_true ?_ fun f hf ↦ absurd (hends.symm.trans hf) nofun
    rw [Reported, hview, hno, Bool.or_false]
    exact h

/-- The address is given in numbers, the datagram cannot be sent, and the main thread is told before the tracker finds
that no family is left. -/
def Setup.repeats (c : Setup) : Bool :=
  c.hostname ≠ [] && c.port ≠ 0 && c.numeric.any c.isOpen && c.writing.isFailed && c.delivers

section Send

attribute [local simp] sendEvent start closeDirectly connectFamily connect setFamily live outstanding Function.update_apply
  handleSetupError handleUdpError resetFamilyWithError resetFamily updateRequestingState removeEvents slot deliver
  Reported View.Reported View.outstanding view Report.isSuccess Writing.isFailed Setup.repeats

theorem sendEvent_reported (c : Setup) :
    ∃ t, sendEvent c (start c) = .ok t ∧ (Reported (t, false) ↔ c.repeats = false) := by
  obtain ⟨hostname, port, family, stopped, numeric, isOpen, id, writing, delivers⟩ := c
  have hid : ∀ f, (id f).val ≠ 0 := fun f ↦ (id f).property.1
  by_cases hname : hostname = []
  · simp [hname]
  by_cases hport : port = 0
  · simp [hname, hport]
  cases numeric with
  | none => cases h : isOpen .inet <;> cases h' : isOpen .inet6 <;> simp [hname, hport, hid, h, h']
  | some f =>
    -- The other family has no address.
    cases f <;> cases h : isOpen .inet <;> cases h' : isOpen .inet6 <;> cases writing <;> cases delivers <;>
      simp [hname, hport, hid, h, h']

end Send

/-- There is no report while a family is outstanding, and then there is one, which is a success if and only if some family
has had a valid reply: as long as the first datagram does not fail with the main thread running in between, and no family
that is left ends with an error behind a valid reply to the other. A family stays outstanding until it fails or is
answered. -/
theorem reported_iff (c : Setup) (events : List Event) : ∃ t, sendEvent c (start c) = .ok t ∧
      (∀ e u g, (step e u).live g = (u.live g && decide (ends e u ≠ some g))) ∧
      ((∀ l, l <+: events → Yields (forEach watch l (t, false)) Reported) ↔
        c.repeats = false ∧ Along watch Keeps events (t, false)) := by
  obtain ⟨t, hsend, hstart⟩ := sendEvent_reported c
  refine ⟨t, hsend, live_step, ?_⟩
  have hstep : ∀ e p, True → Reported p → Yields (watch e p) fun q ↦ True ∧ (Reported q ↔ Keeps e p) :=
    fun e p _ hp ↦ ⟨trivial, reported_watch e p hp⟩
  constructor
  · intro hall
    have hreported : Reported (t, false) := hall [] List.nil_prefix
    exact ⟨hstart.mp hreported, (forall_prefix_iff_along hstep events trivial hreported).mp hall⟩
  · rintro ⟨hnot, halong⟩
    exact (forall_prefix_iff_along hstep events trivial (hstart.mpr hnot)).mpr halong

def twoFamilies : Setup where
  hostname := ascii "tracker"
  port := 80
  family _ := {}
  stopped := false
  numeric := none
  isOpen _ := true
  id f := if f = .inet then ⟨1, by decide⟩ else ⟨2, by decide⟩
  writing := .sent
  delivers := false

def unreachable : Setup :=
  { twoFamilies with numeric := some .inet, writing := .failed (.errno (ascii "EHOSTUNREACH")), delivers := true }

/-- The announce over IPv4 is answered, and the lookup of an IPv6 address fails. -/
def answeredThenFailed : List Event :=
  [.read .inet [0, 0, 0, 0, 0, 0, 0, 1, 0, 0, 0, 0, 0, 0, 0, 7] ⟨3, by decide⟩ .sent,
    .read .inet [0, 0, 0, 1, 0, 0, 0, 3, 0, 0, 7, 8, 0, 0, 0, 1, 0, 0, 0, 1, 10, 0, 0, 2, 26, 225] ⟨4, by decide⟩ .sent,
    .failed .inet6 (.gai (ascii "EAI_NONAME"))]

/-- A valid reply is reported as a failure, as the other family ends after it; and one event fails twice. -/
theorem reported_wrongly : (∃ t u, sendEvent twoFamilies (start twoFamilies) = .ok t ∧
      forEach watch answeredThenFailed (t, false) = .ok (u, true) ∧ u.view = ⟨fun _ ↦ false, some false, []⟩) ∧
    ∃ t, sendEvent unreachable (start unreachable) = .ok t ∧ t.view = ⟨fun _ ↦ false, some false, [false]⟩ := by
  refine ⟨⟨_, _, rfl, rfl, ?_⟩, _, rfl, ?_⟩
  all_goals
    ext f : 2
    · cases f <;> decide +kernel
    · rfl
    · rfl

end TrackerUdp

end LibTorrent
