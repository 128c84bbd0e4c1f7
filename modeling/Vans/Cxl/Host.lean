import Vans.Cxl.Model
import Vans.Common.History
/-!
# CXL — the host's mailbox

A device between a protocol handler and a host registers itself for the
handler's responses and puts each into the host's mailbox, which holds
one. The host receives from the mailbox; so does the device, when it is
to send a response of its own. A link observes what its device produces
and what its host receives, and the mailbox loses no response exactly
where the host and the device take turns.
-/

namespace Vans

namespace Cxl

/-! ## The two interfaces -/

structure CxlHostInterfaceImpl where
  /-- Whether the source's `device_` is set: to the device of the link. -/
  attached : Bool := false
  response : CxlResponse := {}
  responseReady : Bool := false
  deriving Repr

namespace CxlHostInterfaceImpl

def attachDevice (host : CxlHostInterfaceImpl) : CxlHostInterfaceImpl :=
  { host with attached := true }

def setResponse (resp : CxlResponse) (host : CxlHostInterfaceImpl) : CxlHostInterfaceImpl :=
  { host with response := resp, responseReady := true }

/-- What is returned, and the response, which is overwritten where there
is one to receive. -/
def receiveResponse (response : CxlResponse) (host : CxlHostInterfaceImpl) :
    Bool × CxlResponse × CxlHostInterfaceImpl :=
  if !host.responseReady then (false, response, host)
  else (true, host.response, { host with responseReady := false })

/-- The response that waits to be received. -/
def unread (host : CxlHostInterfaceImpl) : List CxlResponse :=
  if host.responseReady then [host.response] else []

variable {host : CxlHostInterfaceImpl} {resp : CxlResponse}

@[simp] theorem unread_setResponse : (host.setResponse resp).unread = [resp] := rfl

@[simp] theorem attached_setResponse : (host.setResponse resp).attached = host.attached := rfl

theorem unread_eq_nil : host.unread = [] ↔ host.responseReady = false := by
  cases h : host.responseReady <;> simp [unread, h]

/-- **Receiving leaves nothing to receive.** -/
@[simp] theorem unread_receiveResponse : (host.receiveResponse resp).2.2.unread = [] := by
  cases h : host.responseReady <;> simp [receiveResponse, unread, h]

@[simp] theorem attached_receiveResponse :
    (host.receiveResponse resp).2.2.attached = host.attached := by
  cases h : host.responseReady <;> simp [receiveResponse, h]

end CxlHostInterfaceImpl

/-- What is observed of a link. -/
inductive Obs where
  /-- A command was handled, with this response. -/
  | handled (resp : CxlResponse)
  /-- The device was given this response to send. -/
  | sent (resp : CxlResponse)
  /-- The host received this response. -/
  | received (resp : CxlResponse)
  /-- The host was told that there was none. -/
  | noResponse
  deriving DecidableEq, Repr

/-- A host, the handler and the device that connects them: the device
keeps no state but where the two are. -/
structure Link where
  host : CxlHostInterfaceImpl
  handler : CxlProtocolHandlerImpl Unit
  log : List Obs := []

namespace CxlDeviceInterfaceImpl

/-- The constructor: the callback registered puts a response into the
host's mailbox. -/
def mk (handler : CxlProtocolHandlerImpl Unit) (host : CxlHostInterfaceImpl) : Link :=
  { host := host, handler := handler.registerResponseCallback () }

def receiveCommand (cmd : CxlCommand) (l : Link) : Except Failure (Bool × Link) := do
  let (returned, delivered, handler) ← l.handler.issueCommand cmd
  return (returned, { l with
    handler := handler
    host := delivered.foldl (fun host d => host.setResponse d.2) l.host
    log := l.log ++ delivered.map fun d => .handled d.2 })

/-- The response handed over is the one the host's `receiveResponse`
overwrites. -/
def sendResponse (response : CxlResponse) (l : Link) : Bool × CxlResponse × Link :=
  let (returned, overwritten, host) := l.host.receiveResponse response
  (returned, overwritten, { l with host := host, log := l.log ++ [.sent response] })

end CxlDeviceInterfaceImpl

namespace Link

/-- The host's `sendCommand`. -/
def sendCommand (cmd : CxlCommand) (l : Link) : Except Failure (Bool × Link) :=
  if !l.host.attached then pure (false, l) else CxlDeviceInterfaceImpl.receiveCommand cmd l

/-- The host's `receiveResponse`, with what it is seen to return. -/
def receiveResponse (response : CxlResponse) (l : Link) : Bool × CxlResponse × Link :=
  let (returned, response, host) := l.host.receiveResponse response
  (returned, response, { l with
    host := host, log := l.log ++ [if returned then .received response else .noResponse] })

/-- A device is made for the host and the handler, and the host attached
to it. -/
def attach (handler : CxlProtocolHandlerImpl Unit) : Link :=
  CxlDeviceInterfaceImpl.mk handler ({} : CxlHostInterfaceImpl).attachDevice

end Link

/-- The calls that may be made of a link. -/
inductive Call where
  | sendCommand (cmd : CxlCommand)
  | sendResponse (response : CxlResponse)
  /-- With the response to be overwritten. -/
  | receiveResponse (response : CxlResponse)
  deriving DecidableEq, Repr

/-- The call has the device produce a response. -/
def Call.produces : Call → Bool
  | .sendCommand _ | .sendResponse _ => true
  | .receiveResponse _ => false

def link : Machine Link Call Failure where
  step := fun l call =>
    match call with
    | .sendCommand cmd => do
      let (_, l) ← l.sendCommand cmd
      return l
    | .sendResponse response => pure (CxlDeviceInterfaceImpl.sendResponse response l).2.2
    | .receiveResponse response => pure (l.receiveResponse response).2.2

/-! ## What is produced and what is received -/

def produced (log : List Obs) : List CxlResponse :=
  log.filterMap fun
    | .handled resp | .sent resp => some resp
    | .received _ | .noResponse => none

def received (log : List Obs) : List CxlResponse :=
  log.filterMap fun
    | .received resp => some resp
    | .handled _ | .sent _ | .noResponse => none

/-- A response received is the next of those produced, and the host is
told that there is none when it has received them all. -/
def ReceivesNext (before : List Obs) : Obs → Prop
  | .received resp => received before ++ [resp] <+: produced before
  | .noResponse => received before = produced before
  | .handled _ | .sent _ => True

/-- **Delivery.** The responses received are those produced, in order
and each once, and none is missed. -/
def Delivers (log : List Obs) : Prop := History.Always ReceivesNext log

/-- The call finds the mailbox as it needs to: a command is sent when no
response waits to be received, and the device is given none to send. -/
def TakesTurns (l : Link) : Call → Prop
  | .sendCommand _ => l.host.responseReady = false
  | .sendResponse _ => False
  | .receiveResponse _ => True

instance TakesTurns.decidable (l : Link) : DecidablePred (TakesTurns l)
  | .sendCommand _ => inferInstanceAs (Decidable (_ = _))
  | .sendResponse _ => inferInstanceAs (Decidable False)
  | .receiveResponse _ => inferInstanceAs (Decidable True)

section Log

variable {log : List Obs} {resp : CxlResponse}

@[simp] theorem produced_append {log' : List Obs} :
    produced (log ++ log') = produced log ++ produced log' := List.filterMap_append

@[simp] theorem received_append {log' : List Obs} :
    received (log ++ log') = received log ++ received log' := List.filterMap_append

@[simp] theorem produced_handled : produced [.handled resp] = [resp] := rfl
@[simp] theorem produced_sent : produced [.sent resp] = [resp] := rfl
@[simp] theorem produced_received : produced [.received resp] = [] := rfl
@[simp] theorem produced_noResponse : produced [.noResponse] = [] := rfl
@[simp] theorem received_handled : received [.handled resp] = [] := rfl
@[simp] theorem received_sent : received [.sent resp] = [] := rfl
@[simp] theorem received_received : received [.received resp] = [resp] := rfl
@[simp] theorem received_noResponse : received [.noResponse] = [] := rfl

end Log

/-! ## The steps of a link -/

namespace Link

variable {l l' : Link} {call : Call}

/-- The device is attached and registered. -/
structure Attached (l : Link) : Prop where
  host : l.host.attached = true
  handler : l.handler.responseCb = some ()

@[simp] theorem unread_receiveResponse {resp : CxlResponse} :
    (l.receiveResponse resp).2.2.host.unread = [] := by
  simp [receiveResponse]

theorem log_receiveResponse {resp : CxlResponse} : (l.receiveResponse resp).2.2.log =
    l.log ++ [if l.host.responseReady then .received l.host.response else .noResponse] := by
  cases h : l.host.responseReady <;> simp [receiveResponse, CxlHostInterfaceImpl.receiveResponse, h]

/-- **What a step can do**: a command overwrites the mailbox, a response
the device is to send empties it, and so does the host. -/
theorem step_cases (att : l.Attached) (h : link.step l call = .ok l') :
    l'.Attached ∧
      ((∃ cmd resp, call = .sendCommand cmd ∧ l'.host = l.host.setResponse resp ∧
          l'.log = l.log ++ [.handled resp]) ∨
        (∃ resp, call = .sendResponse resp ∧ l'.host.unread = [] ∧
          l'.log = l.log ++ [.sent resp]) ∨
        (∃ resp, call = .receiveResponse resp ∧ l'.host.unread = [] ∧
          l'.log = l.log ++ [if l.host.responseReady then .received l.host.response
            else .noResponse])) := by
  cases call with
  | sendCommand cmd =>
      simp only [link, sendCommand, att.host, Bool.not_true, Bool.false_eq_true, if_false,
        CxlDeviceInterfaceImpl.receiveCommand, CxlProtocolHandlerImpl.issueCommand,
        CxlProtocolHandlerImpl.invokeResponse, att.handler, bind_eq_ok, pure_eq_ok] at h
      obtain ⟨_, ⟨_, ⟨⟨resp, memory⟩, -, rfl⟩, rfl⟩, rfl⟩ := h
      exact ⟨⟨att.host, rfl⟩, .inl ⟨cmd, resp, rfl, rfl, rfl⟩⟩
  | sendResponse resp =>
      obtain rfl := pure_eq_ok.mp h
      exact ⟨⟨by simp [CxlDeviceInterfaceImpl.sendResponse, att.host], att.handler⟩,
        .inr (.inl ⟨resp, rfl, by simp [CxlDeviceInterfaceImpl.sendResponse], rfl⟩)⟩
  | receiveResponse resp =>
      obtain rfl := pure_eq_ok.mp h
      exact ⟨⟨by simp [receiveResponse, att.host], att.handler⟩,
        .inr (.inr ⟨resp, rfl, unread_receiveResponse, log_receiveResponse⟩)⟩

/-- Every response produced was received, or waits. -/
def InStep (l : Link) : Prop := produced l.log = received l.log ++ l.host.unread

/-- A response produced was neither received nor waits. -/
def Behind (l : Link) : Prop :=
  (received l.log).length + l.host.unread.length < (produced l.log).length

/-- **Taking turns loses nothing.** -/
theorem InStep.step (hin : l.InStep) (hdel : Delivers l.log) (att : l.Attached)
    (hturn : TakesTurns l call) (h : link.step l call = .ok l') : l'.InStep ∧ Delivers l'.log := by
  unfold InStep at hin ⊢
  obtain ⟨-, ⟨cmd, resp, rfl, hhost, hlog⟩ | ⟨resp, rfl, -, -⟩ | ⟨resp, rfl, hunread, hlog⟩⟩ :=
    step_cases att h
  · rw [CxlHostInterfaceImpl.unread_eq_nil.mpr hturn, List.append_nil] at hin
    rw [hlog, hhost]
    exact ⟨by simp [hin], History.always_concat.mpr ⟨hdel, trivial⟩⟩
  · exact hturn.elim
  · rw [hlog, hunread]
    cases hready : l.host.responseReady with
    | false =>
        rw [CxlHostInterfaceImpl.unread_eq_nil.mpr hready, List.append_nil] at hin
        exact ⟨by simp [hin], History.always_concat.mpr ⟨hdel, hin.symm⟩⟩
    | true =>
        have hwaits : l.host.unread = [l.host.response] := by simp [CxlHostInterfaceImpl.unread, hready]
        rw [hwaits] at hin
        exact ⟨by simp [hin],
          History.always_concat.mpr ⟨hdel, by simp only [if_true, ReceivesNext, hin, List.prefix_rfl]⟩⟩

/-- **Out of turn, a response is lost.** -/
theorem InStep.behind (hin : l.InStep) (att : l.Attached) (hturn : ¬ TakesTurns l call)
    (h : link.step l call = .ok l') : l'.Behind := by
  have hlen := congrArg List.length hin
  rw [List.length_append] at hlen
  unfold Behind
  obtain ⟨-, ⟨cmd, resp, rfl, hhost, hlog⟩ | ⟨resp, rfl, hunread, hlog⟩ | ⟨resp, rfl, -, -⟩⟩ :=
    step_cases att h
  · have hready : l.host.responseReady = true := by simpa [TakesTurns] using hturn
    have hwaits : l.host.unread.length = 1 := by simp [CxlHostInterfaceImpl.unread, hready]
    simp only [hhost, hlog, received_append, produced_append, List.length_append,
      CxlHostInterfaceImpl.unread_setResponse, received_handled, produced_handled,
      List.length_nil, List.length_singleton]
    omega
  · simp only [hunread, hlog, received_append, produced_append, List.length_append, received_sent,
      produced_sent, List.length_nil, List.length_singleton]
    omega
  · exact absurd trivial hturn

/-- **What was lost stays lost.** -/
theorem Behind.step (hbehind : l.Behind) (att : l.Attached) (h : link.step l call = .ok l') :
    l'.Behind := by
  unfold Behind at hbehind ⊢
  obtain ⟨-, ⟨cmd, resp, rfl, hhost, hlog⟩ | ⟨resp, rfl, hunread, hlog⟩ | ⟨resp, rfl, hunread, hlog⟩⟩ :=
    step_cases att h
  · simp only [hhost, hlog, received_append, produced_append, List.length_append,
      CxlHostInterfaceImpl.unread_setResponse, received_handled, produced_handled,
      List.length_nil, List.length_singleton]
    omega
  · simp only [hunread, hlog, received_append, produced_append, List.length_append, received_sent,
      produced_sent, List.length_nil, List.length_singleton]
    omega
  · cases hready : l.host.responseReady with
    | false => simp only [hunread, hlog, hready, received_append, produced_append, List.length_append,
        Bool.false_eq_true, if_false, received_noResponse, produced_noResponse, List.length_nil]; omega
    | true =>
        have hwaits : l.host.unread.length = 1 := by simp [CxlHostInterfaceImpl.unread, hready]
        simp only [hunread, hlog, hready, received_append, produced_append, List.length_append,
          if_true, received_received, produced_received, List.length_nil, List.length_singleton]
        omega

/-- Only the calls that produce add to what is produced, one a call. -/
theorem produced_step (att : l.Attached) (h : link.step l call = .ok l') :
    (produced l'.log).length = (produced l.log).length + if call.produces then 1 else 0 := by
  obtain ⟨-, ⟨cmd, resp, rfl, -, hlog⟩ | ⟨resp, rfl, -, hlog⟩ | ⟨resp, rfl, -, hlog⟩⟩ :=
    step_cases att h
  · simp [hlog, Call.produces]
  · simp [hlog, Call.produces]
  · cases hready : l.host.responseReady <;> simp [hlog, hready, Call.produces]

/-! ## Runs of a link -/

variable {handler : CxlProtocolHandlerImpl Unit} {calls : List Call} {r₁ r₂ : CxlResponse}

theorem attach_attached : (attach handler).Attached := ⟨rfl, rfl⟩

/-- The host asks twice: the mailbox holds at most one response. -/
def receiveTwice (r₁ r₂ : CxlResponse) (l : Link) : Link :=
  ((l.receiveResponse r₁).2.2.receiveResponse r₂).2.2

theorem run_receiveTwice (h : link.run (attach handler) calls = .ok l) :
    link.run (attach handler) (calls ++ [.receiveResponse r₁, .receiveResponse r₂]) =
      .ok (l.receiveTwice r₁ r₂) := by
  rw [Machine.run, List.foldlM_append, ← Machine.run, h]
  rfl

/-- **Who asks twice is told that there is none while one was lost.** -/
theorem Behind.not_delivers (hbehind : l.Behind) (att : l.Attached) :
    ¬ Delivers (l.receiveTwice r₁ r₂).log := by
  have hbehind' : (l.receiveResponse r₁).2.2.Behind :=
    hbehind.step att (rfl : link.step _ (.receiveResponse r₁) = _)
  have hnone := CxlHostInterfaceImpl.unread_eq_nil.mp (@unread_receiveResponse l r₁)
  intro hdel
  rw [receiveTwice, log_receiveResponse, hnone] at hdel
  obtain ⟨-, hall⟩ := History.always_concat.mp hdel
  have hlen := congrArg List.length hall
  rw [Behind, unread_receiveResponse, List.length_nil] at hbehind'
  omega

/-- Every call that produces was answered by one response. -/
theorem produced_run (att : l.Attached) (h : link.run l calls = .ok l') :
    (produced l'.log).length = (produced l.log).length + calls.countP Call.produces := by
  induction calls generalizing l with
  | nil => obtain rfl := pure_eq_ok.mp h; rfl
  | cons call calls ih =>
      rw [Machine.run_cons, bind_eq_ok] at h
      obtain ⟨mid, hstep, hrun⟩ := h
      rw [ih (step_cases att hstep).1 hrun, produced_step att hstep, List.countP_cons]
      omega

/-- A link that has lost nothing. -/
structure Sound (l : Link) : Prop where
  attached : l.Attached
  inStep : l.InStep
  delivers : Delivers l.log

theorem Sound.attach : (attach handler).Sound where
  attached := attach_attached
  inStep := rfl
  delivers := History.always_nil

theorem Sound.step (snd : l.Sound) (hturn : TakesTurns l call) (h : link.step l call = .ok l') :
    l'.Sound := by
  obtain ⟨hin, hdel⟩ := snd.inStep.step snd.delivers snd.attached hturn h
  exact ⟨(step_cases snd.attached h).1, hin, hdel⟩

/-- A run that takes turns delivers. -/
theorem delivers_of_meets (hmeets : link.Meets TakesTurns (attach handler) calls)
    (h : link.run (attach handler) calls = .ok l) : Delivers l.log :=
  (link.invariant_of_meets (fun _ _ _ snd hturn hstep => Sound.step snd hturn hstep) Sound.attach
    hmeets h).delivers

/-- A run that does not take turns loses a response. -/
theorem behind_of_not_meets (hmeets : ¬ link.Meets TakesTurns (attach handler) calls)
    (h : link.run (attach handler) calls = .ok l) : l.Behind ∧ l.Attached := by
  refine link.invariant_of_not_meets (Q := fun l => l.Behind ∧ l.Attached)
    (fun _ _ _ snd hturn hstep => Sound.step snd hturn hstep) ?_ ?_ Sound.attach hmeets h
  · intro l call l' snd hturn hstep
    exact ⟨snd.inStep.behind snd.attached hturn hstep, (step_cases snd.attached hstep).1⟩
  · rintro l call l' ⟨hbehind, att⟩ hstep
    exact ⟨hbehind.step att hstep, (step_cases att hstep).1⟩

/-- **Responses reach the host exactly where the parties take turns.**
A response is produced for each command handled and each response the
device is given to send. Where commands are sent only when none waits
and the device is given none to send, the host receives those produced,
in order and each once, and is told that there is none when it has them
all; and otherwise it need only ask twice to find one missing. -/
theorem responses_reach_host (h : link.run (attach handler) calls = .ok l) (r₁ r₂ : CxlResponse) :
    (produced l.log).length = calls.countP Call.produces ∧
      (link.Meets TakesTurns (attach handler) calls → Delivers l.log) ∧
      (Delivers (l.receiveTwice r₁ r₂).log ↔ link.Meets TakesTurns (attach handler) calls) := by
  refine ⟨(produced_run attach_attached h).trans (Nat.zero_add _),
    fun hmeets => delivers_of_meets hmeets h, ?_⟩
  constructor
  · intro hdel
    by_contra hmeets
    obtain ⟨hbehind, att⟩ := behind_of_not_meets hmeets h
    exact hbehind.not_delivers att hdel
  · intro hmeets
    have hasks : link.Meets TakesTurns l [.receiveResponse r₁, .receiveResponse r₂] :=
      ⟨trivial, fun _ _ => ⟨trivial, fun _ _ => trivial⟩⟩
    exact delivers_of_meets (link.meets_append hmeets h hasks) (run_receiveTwice h)

/-- A command, and its response received before the next command. -/
theorem responses_reach_host_inTurn : ∃ l, link.run (attach {})
    [.sendCommand { type := .allocate, address := 0, size := 8 }, .receiveResponse {},
      .sendCommand { type := .deallocate, address := 1, size := 0 }, .receiveResponse {}] = .ok l ∧
    received l.log = [⟨true, bytesOf 1⟩, ⟨true, []⟩] ∧ Delivers l.log := by
  have hturns : link.Meets TakesTurns (attach {})
      [.sendCommand { type := .allocate, address := 0, size := 8 }, .receiveResponse {},
        .sendCommand { type := .deallocate, address := 1, size := 0 }, .receiveResponse {}] := by
    decide +kernel
  refine ⟨_, rfl, by decide +kernel, (responses_reach_host rfl {} {}).2.1 hturns⟩

/-! ### Responses that are lost -/

/-- Told that there is none, the host has not received them all. -/
theorem not_delivers_of_noResponse {before : List Obs} (h : received before ≠ produced before) :
    ¬ Delivers (before ++ [.noResponse]) :=
  fun hdel => h (History.always_concat.mp hdel).2

/-- Two commands are sent before a response is asked for. -/
def twoCommands : List Call :=
  [.sendCommand { type := .allocate, address := 0, size := 8 },
    .sendCommand { type := .allocate, address := 0, size := 8 },
    .receiveResponse {}, .receiveResponse {}]

/-- The device is given a response to send. -/
def deviceSends : List Call := [.sendResponse ⟨true, [7]⟩, .receiveResponse {}]

/-- The response to the first command is lost, and the one the device
was to send. -/
theorem responses_lost :
    (∃ l, link.run (attach {}) twoCommands = .ok l ∧
      produced l.log = [⟨true, bytesOf 1⟩, ⟨true, bytesOf 2⟩] ∧
      received l.log = [⟨true, bytesOf 2⟩] ∧ ¬ Delivers l.log) ∧
    (∃ l, link.run (attach {}) deviceSends = .ok l ∧
      produced l.log = [⟨true, [7]⟩] ∧ received l.log = [] ∧ ¬ Delivers l.log) :=
  ⟨⟨_, rfl, by decide +kernel, by decide +kernel, not_delivers_of_noResponse (by decide +kernel)⟩,
    ⟨_, rfl, by decide +kernel, by decide +kernel, not_delivers_of_noResponse (by decide +kernel)⟩⟩

end Link

end Cxl

end Vans
