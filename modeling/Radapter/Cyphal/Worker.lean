import Radapter.Variant
import Radapter.Library.Assoc

/-!
# The Cyphal worker

A `CyphalWorker` subscribes at libcanard to the subjects of its configuration, to the requests for
its services and, while a request of its own is in flight, to the responses on the port of the
request. libcanard hands every transfer back with the object that was registered for its kind and
port.

The requests in flight are kept for each port under the transfer-ID of the request, a counter of
eight bits. libcanard puts its five low bits on the wire, and a response carries these back.

The file has the constructor, `Request`, the timer that drops old requests and the handler of
received transfers. A step without a result has undefined behaviour.
-/

namespace Radapter.Cyphal

open Library

abbrev CanardPortID := UInt16

abbrev CanardNodeID := UInt8

abbrev CanardTransferID := UInt8

inductive CanardTransferKind where
  | Message
  | Response
  | Request
  deriving DecidableEq, Repr

/-- `CanardTransferMetadata`, without the priority. -/
structure CanardTransferMetadata where
  transfer_kind : CanardTransferKind
  port_id : CanardPortID
  remote_node_id : CanardNodeID
  transfer_id : CanardTransferID
  deriving DecidableEq, Repr

/-- The transfer-ID on the wire. -/
def wireId (tid : CanardTransferID) : Fin 32 := ⟨tid.toNat % 32, Nat.mod_lt _ (by decide)⟩

/-- A transfer that `canardRxAccept` has put together. -/
structure CanardRxTransfer where
  transfer_kind : CanardTransferKind
  port_id : CanardPortID
  remote_node_id : CanardNodeID
  transfer_id : Fin 32
  payload : Bytes
  deriving DecidableEq, Repr

/-- The metadata of a received transfer. -/
def CanardRxTransfer.metadata (transfer : CanardRxTransfer) : CanardTransferMetadata :=
  ⟨transfer.transfer_kind, transfer.port_id, transfer.remote_node_id,
    UInt8.ofNat transfer.transfer_id⟩

def CANARD_NODE_ID_MAX : CanardNodeID := 127

/-- The port that the definition of `uavcan.node.GetInfo` fixes. -/
def uavcan_node_GetInfo_1_0_FIXED_PORT_ID_ : CanardPortID := 430

/-- `uavcan_node_GetInfo_Request_1_0_EXTENT_BYTES_`. -/
def uavcan_node_GetInfo_Request_1_0_EXTENT_BYTES_ : ℕ := 0

/-- The described message types. A `CanardMessageDynamic` is compared by its address. -/
structure CyphalGlobal (Dyn : Type) where
  lookup_canard_type : String → Option Dyn
  lookup_service_types : String → Option (Dyn × Dyn)
  name_and_ver : Dyn → String
  extent : Dyn → ℕ
  serialize : Dyn → QVariant → Except String Bytes
  deserialize : Dyn → Bytes → Except String QVariant

/-- The objects that are registered at libcanard. -/
inductive CanardRxSubscription (Dyn : Type) where
  | RxSub (name : String) (dyn : Dyn)
  | Service (type_name : String) (req_dyn resp_dyn : Dyn)
  | info_sub (user_reference : Option Dyn)
  | RequestsPort (port_id : CanardPortID)
  deriving DecidableEq

/-- The subscriptions of a `CanardInstance`: for a kind and a port the registered object and the
extent. -/
abbrev CanardInstance (Dyn : Type) :=
  List ((CanardTransferKind × CanardPortID) × (CanardRxSubscription Dyn × ℕ))

/-- `RequestState`, with the number of the call of `Request` that waits for the promise. -/
structure RequestState where
  promise : ℕ
  timeout : ℕ
  deriving DecidableEq, Repr

/-- `RequestsPort`. -/
structure RequestsPort (Dyn : Type) where
  port_id : CanardPortID
  resp_dyn : Option Dyn
  in_flight : List (CanardTransferID × RequestState)
  tid : CanardTransferID
  deriving DecidableEq

/-- What the worker does, seen from outside. -/
inductive Output where
  /-- A transfer is put into the queue of libcanard; a request with its promise. -/
  | push (metadata : CanardTransferMetadata) (promise : Option ℕ)
  | resolve (promise : ℕ) (res : QVariant)
  | call (type_name : String) (metadata : CanardTransferMetadata) (req : QVariant)
  | SendMsgField (name : String) (msg : QVariant)
  | Raise (text : String)
  | Error (text : String)
  deriving DecidableEq

structure CyphalWorker (Dyn : Type) where
  canard : CanardInstance Dyn
  reqs : List (CanardPortID × RequestsPort Dyn)
  /-- How many promises have been made. -/
  promises : ℕ
  node_info_resp : QVariant
  output : List Output
  deriving DecidableEq

variable {Dyn : Type} [DecidableEq Dyn]

/-! ## libcanard -/

/-- `canardRxSubscribe`: whether the subscription is a new one, and the subscriptions with it. A
subscription that exists is replaced. -/
def canardRxSubscribe (canard : CanardInstance Dyn) (kind : CanardTransferKind)
    (port_id : CanardPortID) (extent : ℕ) (sub : CanardRxSubscription Dyn) :
    Bool × CanardInstance Dyn :=
  ((canard.lookup (kind, port_id)).isNone, Assoc.put (kind, port_id) (sub, extent) canard)

/-- `canardRxUnsubscribe`. -/
def canardRxUnsubscribe (canard : CanardInstance Dyn) (kind : CanardTransferKind)
    (port_id : CanardPortID) : CanardInstance Dyn :=
  Assoc.erase (kind, port_id) canard

/-- The results of `canardTxPush`. -/
inductive CanardTxPush where
  | queued
  | CANARD_ERROR_INVALID_ARGUMENT
  | CANARD_ERROR_OUT_OF_MEMORY
  deriving DecidableEq, Repr

/-! ## The constructor -/

structure CyphalTopic where
  type : String
  port : CanardPortID
  deriving DecidableEq, Repr

/-- `CyphalConfig`: what the constructor checks and subscribes to. -/
structure CyphalConfig where
  node_id : CanardNodeID
  subscribe : List (String × CyphalTopic)
  publish : List (String × CyphalTopic)
  node_info : QVariant
  services : List CyphalTopic

section Worker

variable (types : CyphalGlobal Dyn)

/-- The loop of the constructor over `subscribe`. -/
def subscribeTopics :
    List (String × CyphalTopic) → CanardInstance Dyn → Except String (CanardInstance Dyn)
  | [], canard => .ok canard
  | (name, topic) :: rest, canard =>
      match types.lookup_canard_type topic.type with
      | none => .error s!"Sub {name}: Canard type '{topic.type}' not recognized"
      | some dyn =>
          match canardRxSubscribe canard .Message topic.port (types.extent dyn)
            (.RxSub name dyn) with
          | (true, canard) => subscribeTopics rest canard
          | (false, _) =>
              .error s!"Could not subscribe to msgs of type({topic.type}) on port:{topic.port}"

/-- The loop of the constructor over `services`. -/
def subscribeServices :
    List CyphalTopic → CanardInstance Dyn → Except String (CanardInstance Dyn)
  | [], canard => .ok canard
  | service :: rest, canard =>
      match types.lookup_service_types service.type with
      | none => .error s!"Service: Canard service type '{service.type}' not recognized"
      | some (req, resp) =>
          match canardRxSubscribe canard .Request service.port (types.extent req)
            (.Service service.type req resp) with
          | (true, canard) => subscribeServices rest canard
          | (false, _) =>
              .error s!"Could not subscribe to msgs of type({service.type}) on port:{service.port}"

/-- The loop of the constructor over `publish`. -/
def checkPublish : List (String × CyphalTopic) → Except String Unit
  | [] => .ok ()
  | (name, topic) :: rest =>
      match types.lookup_canard_type topic.type with
      | none => .error s!"Pub {name}: Canard type '{topic.type}' not recognized"
      | some _ => checkPublish rest

/-- The constructor. A service on the port of `uavcan.node.GetInfo` is replaced by the handler of
the worker itself. -/
def construct (config : CyphalConfig) : Except String (CyphalWorker Dyn) := do
  if config.node_id > CANARD_NODE_ID_MAX then
    .error s!"Node id is too big: {config.node_id} (max: {CANARD_NODE_ID_MAX})"
  checkPublish types config.publish
  let canard ← subscribeTopics types config.subscribe []
  let canard ← subscribeServices types config.services canard
  let info_sub := .info_sub (types.lookup_canard_type "uavcan.node.GetInfo.Response.1.0")
  let canard := (canardRxSubscribe canard .Request uavcan_node_GetInfo_1_0_FIXED_PORT_ID_
    uavcan_node_GetInfo_Request_1_0_EXTENT_BYTES_ info_sub).2
  .ok ⟨canard, [], 0, config.node_info, []⟩

/-! ## Requests -/

structure RequestParams where
  type : String
  server : CanardNodeID
  port : CanardPortID
  timeout : ℕ
  deriving DecidableEq, Repr

/-- The worker puts something out. -/
def CyphalWorker.emit (w : CyphalWorker Dyn) (o : Output) : CyphalWorker Dyn :=
  { w with output := w.output ++ [o] }

/-- `pushMsg`: nothing, or the text of the exception. -/
def pushMsg (dyn : Dyn) (msg : QVariant) (err : CanardTxPush) : Except String Unit := do
  let _ ← types.serialize dyn msg
  match err with
  | .queued => .ok ()
  | .CANARD_ERROR_INVALID_ARGUMENT =>
      .error s!"Could not push msg of type: {types.name_and_ver dyn}: Invalid Argument"
  | .CANARD_ERROR_OUT_OF_MEMORY =>
      .error s!"Could not push msg of type: {types.name_and_ver dyn}: Out of memory"

/-- `reqs[port]`: a port that is not there yet is made. -/
def CyphalWorker.port (w : CyphalWorker Dyn) (p : CanardPortID) : RequestsPort Dyn :=
  (w.reqs.lookup p).getD ⟨0, none, [], 0⟩

/-- `port.tid++`, and the response type of the first request. -/
def RequestsPort.next (port : RequestsPort Dyn) (resp : Dyn) : RequestsPort Dyn :=
  { port with tid := port.tid + 1, resp_dyn := some (port.resp_dyn.getD resp) }

/-- A request is put into `in_flight`; the first one makes the port listen to responses. -/
def CyphalWorker.insert (w : CyphalWorker Dyn) (req resp : Dyn) (params : RequestParams) :
    CyphalWorker Dyn :=
  let port := (w.port params.port).next resp
  let in_flight := port.in_flight ++ [((w.port params.port).tid, ⟨w.promises, params.timeout⟩)]
  if in_flight.length = 1 then
    { w with
      reqs := Assoc.put params.port { port with in_flight, port_id := params.port } w.reqs
      promises := w.promises + 1
      canard := (canardRxSubscribe w.canard .Response params.port (types.extent req)
        (.RequestsPort params.port)).2 }
  else
    { w with
      reqs := Assoc.put params.port { port with in_flight } w.reqs
      promises := w.promises + 1 }

/-- The metadata of a request. -/
def CyphalWorker.requestMeta (w : CyphalWorker Dyn) (params : RequestParams) :
    CanardTransferMetadata :=
  ⟨.Request, params.port, params.server, (w.port params.port).tid⟩

/-- `CyphalWorker::Request`; `err` is what `canardTxPush` returns, if the call gets that far. -/
def CyphalWorker.Request (w : CyphalWorker Dyn) (params : RequestParams) (msg : QVariant)
    (err : CanardTxPush) : CyphalWorker Dyn :=
  match types.lookup_service_types params.type with
  | none => w.emit (.Raise s!"Could not find types for service: {params.type}")
  | some (req, resp) =>
      let port := (w.port params.port).next resp
      let taken := { w with reqs := Assoc.put params.port port w.reqs }
      if port.resp_dyn ≠ some resp then
        let was := (port.resp_dyn.map types.name_and_ver).getD ""
        taken.emit (.Raise (s!"Cannot have conflicting types for requests on port: {port.port_id} "
          ++ s!"(was: {was}, passed: {types.name_and_ver resp})"))
      else if ((w.port params.port).in_flight.lookup (w.port params.port).tid).isSome then
        taken.emit (.Raise s!"Too many requests on port: {params.port}")
      else
        match pushMsg types req msg err with
        | .error text => (w.insert types req resp params).emit (.Raise text)
        | .ok () =>
            (w.insert types req resp params).emit (.push (w.requestMeta params) (some w.promises))

/-- `checkReqTimeouts` on the requests of a port. -/
def RequestsPort.sweep (port : RequestsPort Dyn) : RequestsPort Dyn :=
  { port with
    in_flight := port.in_flight.filterMap (fun req =>
      if req.2.timeout < 500 then none
      else some (req.1, { req.2 with timeout := req.2.timeout - 500 })) }

/-- `checkReqTimeouts`: a port without requests is unsubscribed and dropped. -/
def CyphalWorker.checkReqTimeouts (w : CyphalWorker Dyn) : CyphalWorker Dyn :=
  let swept := w.reqs.map (fun port => (port.1, port.2.sweep))
  { w with
    reqs := swept.filter (fun port => !port.2.in_flight.isEmpty)
    canard := (swept.filter (fun port => port.2.in_flight.isEmpty)).foldl
      (fun canard port => canardRxUnsubscribe canard .Response port.2.port_id) w.canard }

/-! ## Received transfers -/

/-- `in_flight.erase(curr)`: a port without requests is unsubscribed. -/
def CyphalWorker.remove (w : CyphalWorker Dyn) (req_port : CanardPortID) (port : RequestsPort Dyn)
    (curr : CanardTransferID) : CyphalWorker Dyn :=
  let in_flight := Assoc.erase curr port.in_flight
  let reqs := Assoc.put req_port { port with in_flight } w.reqs
  if in_flight.isEmpty then
    { w with reqs, canard := canardRxUnsubscribe w.canard .Response port.port_id }
  else { w with reqs }

/-- The branch of `on_frame` for responses. When no request has the transfer-ID, `curr->second` is
read at the end of the table. -/
def CyphalWorker.onResponse (w : CyphalWorker Dyn) (req_port : CanardPortID)
    (transfer : CanardRxTransfer) : Option (CyphalWorker Dyn) := do
  let port ← w.reqs.lookup req_port
  let curr := transfer.metadata.transfer_id
  let handler ← port.in_flight.lookup curr
  let resp_dyn ← port.resp_dyn
  match types.deserialize resp_dyn transfer.payload with
  | .error text => some (w.emit (.Error s!"Could not receive frame: {text}"))
  | .ok res => some ((w.emit (.resolve handler.promise res)).remove req_port port curr)

/-- The branches of `on_frame`. -/
inductive Branch where
  | nodeInfo
  | response
  | request
  | message
  deriving DecidableEq, Repr

/-- The branch that `on_frame` takes. -/
def CanardRxTransfer.branch (transfer : CanardRxTransfer) : Branch :=
  if transfer.port_id = uavcan_node_GetInfo_1_0_FIXED_PORT_ID_ then .nodeInfo
  else
    match transfer.transfer_kind with
    | .Response => .response
    | .Request => .request
    | .Message => .message

/-- `on_frame`, once `canardRxAccept` has put a transfer together. The object is cast to what the
branch expects; what happens when it is something else is undefined. -/
def CyphalWorker.on_frame (w : CyphalWorker Dyn) (transfer : CanardRxTransfer)
    (err : CanardTxPush) : Option (CyphalWorker Dyn) :=
  match w.canard.lookup (transfer.transfer_kind, transfer.port_id) with
  | none => some w
  | some (sub, _) =>
      match transfer.branch, sub with
      | .nodeInfo, .info_sub (some resp_dyn) =>
          match pushMsg types resp_dyn w.node_info_resp err with
          | .error text => some (w.emit (.Error s!"Could not receive frame: {text}"))
          | .ok () =>
              some (w.emit (.push { transfer.metadata with transfer_kind := .Response } none))
      | .response, .RequestsPort req_port => w.onResponse types req_port transfer
      | .request, .Service type_name req_dyn _ =>
          match types.deserialize req_dyn transfer.payload with
          | .error text => some (w.emit (.Error s!"Could not receive frame: {text}"))
          | .ok req => some (w.emit (.call type_name transfer.metadata req))
      | .message, .RxSub name dyn =>
          match types.deserialize dyn transfer.payload with
          | .error text => some (w.emit (.Error s!"Could not receive frame: {text}"))
          | .ok msg => some (w.emit (.SendMsgField name msg))
      | _, _ => none

/-! ## Runs -/

inductive Action where
  | Request (params : RequestParams) (msg : QVariant) (err : CanardTxPush)
  | checkReqTimeouts
  | on_frame (transfer : CanardRxTransfer) (err : CanardTxPush)

/-- A step of the worker; none when the behaviour is undefined. -/
def step (w : CyphalWorker Dyn) : Action → Option (CyphalWorker Dyn)
  | .Request params msg err => some (w.Request types params msg err)
  | .checkReqTimeouts => some w.checkReqTimeouts
  | .on_frame transfer err => w.on_frame types transfer err

end Worker

end Radapter.Cyphal
