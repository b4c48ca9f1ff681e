import Radapter.Cyphal.Refused

/-!
# The extents of responses

A worker that starts to listen to responses registers the extent of the request, and libcanard keeps
no more bytes of a response than that. Nothing fails when bytes are cut off: what is missing is read
as zero.
-/

namespace Radapter.Cyphal

open Library

variable {Dyn : Type}

/-- `canardRxAccept` keeps as many bytes of a payload as the subscription has taken room for. -/
def CyphalWorker.accept (w : CyphalWorker Dyn) (transfer : CanardRxTransfer) : CanardRxTransfer :=
  match w.canard.lookup (transfer.transfer_kind, transfer.port_id) with
  | none => transfer
  | some (_, extent) => { transfer with payload := transfer.payload.take extent }

/-- `on_frame` with the transfer that comes over the bus. -/
def CyphalWorker.receive (types : CyphalGlobal Dyn) (w : CyphalWorker Dyn)
    (transfer : CanardRxTransfer) (err : CanardTxPush) : Option (CyphalWorker Dyn) :=
  w.on_frame types (w.accept transfer) err

section Statements

variable (types : CyphalGlobal Dyn) (w : CyphalWorker Dyn)

/-- The bytes are a response of the type that the requests on the port have. -/
def ResponseOn (p : CanardPortID) (payload : Bytes) : Prop :=
  ∃ resp v, (w.port p).resp_dyn = some resp ∧ types.serialize resp v = .ok payload

/-- The subscriptions have room for all responses on their ports. -/
def Wide : Prop :=
  ∀ p sub extent, w.canard.lookup (.Response, p) = some (sub, extent) →
    ∀ payload, ResponseOn types w p payload → payload.length ≤ extent

/-- The promise that a response resolves gets what the whole payload says. -/
def ResolvesWhole : Prop :=
  ∀ transfer err w' k res, transfer.transfer_kind = .Response →
    ResponseOn types w transfer.port_id transfer.payload →
    w.receive types transfer err = some w' → w'.output = w.output ++ [.resolve k res] →
    ∃ resp, (w.port transfer.port_id).resp_dyn = some resp ∧
      types.deserialize resp transfer.payload = .ok res

/-- The subscriptions have room for all responses, and these are read as a whole. -/
def Complete : Prop := Wide types w ∧ ResolvesWhole types w

/-- The responses of a service fit into the extent of its requests. -/
def Roomy (req resp : Dyn) : Prop :=
  ∀ v payload, types.serialize resp v = .ok payload → payload.length ≤ types.extent req

/-- A call that makes the worker listen on its port is one for a service whose responses fit. -/
def ListensRoomy : Action → Prop
  | .Request params _ _ => (w.port params.port).in_flight = [] →
      ∀ req resp, types.lookup_service_types params.type = some (req, resp) →
        ((w.port params.port).resp_dyn = none ∨ (w.port params.port).resp_dyn = some resp) →
        Roomy types req resp
  | _ => True

end Statements

variable {types : CyphalGlobal Dyn} {w w' : CyphalWorker Dyn}

/-! ## Whole responses -/

/-- A response that fits is accepted as it is. -/
theorem Wide.accept_eq (hw : Wide types w) {transfer : CanardRxTransfer}
    (hkind : transfer.transfer_kind = .Response)
    (hresponse : ResponseOn types w transfer.port_id transfer.payload) :
    w.accept transfer = transfer := by
  unfold CyphalWorker.accept
  rw [hkind]
  split
  · rfl
  · next sub extent hsub =>
    rw [List.take_of_length_le (hw _ sub extent hsub _ hresponse), ← hkind]

/-- A promise is resolved with what the payload says in the response type of the port. -/
theorem deserialize_of_resolves {transfer : CanardRxTransfer} {err : CanardTxPush} {k : ℕ}
    {res : QVariant} (hw : Consistent w) (hkind : transfer.transfer_kind = .Response)
    (hframe : w.on_frame types transfer err = some w')
    (hout : w'.output = w.output ++ [.resolve k res]) :
    ∃ resp, (w.port transfer.port_id).resp_dyn = some resp ∧
      types.deserialize resp transfer.payload = .ok res := by
  by_cases hidle : (w.port transfer.port_id).in_flight = []
  · rw [hw.on_frame_idle hkind hidle err] at hframe
    obtain rfl := Option.some.inj hframe
    simp at hout
  rw [hw.on_frame_busy hkind hidle err] at hframe
  split at hframe
  · cases hframe
  · unfold CyphalWorker.onResponse at hframe
    simp only [Option.bind_eq_bind, Option.bind_eq_some_iff] at hframe
    obtain ⟨port, hp, state, -, resp, hresp, hframe⟩ := hframe
    rw [port_of_lookup hp]
    refine ⟨resp, hresp, ?_⟩
    cases hres : types.deserialize resp transfer.payload with
    | error text =>
      rw [hres] at hframe
      obtain rfl := Option.some.inj hframe
      simp [CyphalWorker.emit] at hout
    | ok got =>
      rw [hres] at hframe
      obtain rfl := Option.some.inj hframe
      rw [(remove_spec _ _ _ _).2.2] at hout
      obtain ⟨-, rfl⟩ := Output.resolve.inj (List.singleton_inj.mp (List.append_cancel_left hout))
      rfl

/-- With room for all responses, these are read as a whole. -/
theorem Wide.complete (hwide : Wide types w) (hw : Consistent w) : Complete types w := by
  refine ⟨hwide, ?_⟩
  intro transfer err w' k res hkind hresponse hreceive hout
  rw [CyphalWorker.receive, hwide.accept_eq hkind hresponse] at hreceive
  exact deserialize_of_resolves hw hkind hreceive hout

/-! ## What the steps do to the subscriptions -/

/-- Subscriptions that are kept, with the response types of their ports, keep their room. -/
theorem Wide.of_kept (hwide : Wide types w)
    (hkept : ∀ p sub, w'.canard.lookup (.Response, p) = some sub →
      w.canard.lookup (.Response, p) = some sub ∧ (w'.port p).resp_dyn = (w.port p).resp_dyn) :
    Wide types w' := by
  rintro p sub extent hsub payload ⟨resp, v, hresp, hpayload⟩
  obtain ⟨hold, htype⟩ := hkept p _ hsub
  exact hwide p sub extent hold payload ⟨resp, v, htype ▸ hresp, hpayload⟩

/-- To send or to tell something changes no subscription. -/
theorem Wide.emit (hwide : Wide types w) (o : Output) : Wide types (w.emit o) :=
  hwide

/-- The port that has been put into the table. -/
theorem port_put_self {p : CanardPortID} {port : RequestsPort Dyn}
    (h : w'.reqs = Assoc.put p port w.reqs) : w'.port p = port := by
  rw [CyphalWorker.port, h, Assoc.lookup_put_self, Option.getD_some]

/-- The records of the other ports stay. -/
theorem port_put_ne {p q : CanardPortID} {port : RequestsPort Dyn}
    (h : w'.reqs = Assoc.put p port w.reqs) (hne : q ≠ p) : w'.port q = w.port q := by
  rw [CyphalWorker.port, h, Assoc.lookup_put_ne hne, CyphalWorker.port]

/-- A port that the worker listens on has its response type. -/
theorem Consistent.resp_dyn_of_listens (hw : Consistent w) {p : CanardPortID}
    {sub : CanardRxSubscription Dyn × ℕ} (h : w.canard.lookup (.Response, p) = some sub)
    (resp : Dyn) : ((w.port p).next resp).resp_dyn = (w.port p).resp_dyn := by
  obtain ⟨port, hp, -⟩ := hw.listens_only h
  obtain ⟨dyn, hdyn⟩ := Option.isSome_iff_exists.mp (hw.typed hp)
  rw [port_of_lookup hp, RequestsPort.next, hdyn, Option.getD_some]

/-- A transfer-ID that is lost changes no subscription. -/
theorem Consistent.wide_next (hw : Consistent w) (hwide : Wide types w) (p : CanardPortID)
    (resp : Dyn) : Wide types { w with reqs := Assoc.put p ((w.port p).next resp) w.reqs } := by
  apply hwide.of_kept
  intro q sub hsub
  refine ⟨hsub, ?_⟩
  by_cases hq : q = p
  · subst hq
    rw [port_put_self rfl]
    exact hw.resp_dyn_of_listens hsub resp
  · rw [port_put_ne rfl hq]

/-- A request on a port that has others in flight changes no subscription. -/
theorem Consistent.wide_insert_busy (hw : Consistent w) (hwide : Wide types w) (req resp : Dyn)
    {params : RequestParams} (hbusy : (w.port params.port).in_flight ≠ []) :
    Wide types (w.insert types req resp params) := by
  have hcanard : (w.insert types req resp params).canard = w.canard := by
    unfold CyphalWorker.insert
    simp only
    rw [if_neg]
    simp [RequestsPort.next, hbusy]
  have hreqs := (@insert_spec _ types _ hw req resp params).1
  apply hwide.of_kept
  intro q sub hsub
  rw [hcanard] at hsub
  refine ⟨hsub, ?_⟩
  by_cases hq : q = params.port
  · subst hq
    rw [port_put_self hreqs]
    exact hw.resp_dyn_of_listens hsub resp
  · rw [port_put_ne hreqs hq]

/-- The first request on a port subscribes with the extent of the request. -/
theorem Consistent.insert_idle (hw : Consistent w) (req resp : Dyn) {params : RequestParams}
    (hidle : (w.port params.port).in_flight = []) :
    (w.insert types req resp params).canard.lookup (.Response, params.port) =
        some (.RequestsPort params.port, types.extent req) ∧
      ((w.insert types req resp params).port params.port).resp_dyn =
        ((w.port params.port).next resp).resp_dyn := by
  rw [port_put_self (@insert_spec _ types _ hw req resp params).1]
  refine ⟨?_, rfl⟩
  unfold CyphalWorker.insert
  simp only
  rw [if_pos (by simp [RequestsPort.next, hidle])]
  exact Assoc.lookup_put_self ..

/-- It has room for the responses exactly if the extent of the request is large enough for them. -/
theorem Consistent.wide_insert_idle_iff (hw : Consistent w) (hwide : Wide types w) (req : Dyn)
    {resp : Dyn} {params : RequestParams} (hidle : (w.port params.port).in_flight = [])
    (hresp : ((w.port params.port).next resp).resp_dyn = some resp) :
    Wide types (w.insert types req resp params) ↔ Roomy types req resp := by
  obtain ⟨hlisten, htype⟩ := @Consistent.insert_idle _ types _ hw req resp _ hidle
  rw [hresp] at htype
  constructor
  · intro h v payload hpayload
    exact h _ _ _ hlisten payload ⟨resp, v, htype, hpayload⟩
  · rintro hroomy p sub extent hsub payload ⟨resp', v, hresp', hpayload⟩
    obtain ⟨hreqs, -, -, -, hother⟩ := @insert_spec _ types _ hw req resp params
    by_cases hp : p = params.port
    · subst hp
      obtain ⟨-, rfl⟩ := Prod.mk.inj (Option.some.inj (hlisten.symm.trans hsub))
      obtain rfl := Option.some.inj (htype.symm.trans hresp')
      exact hroomy v payload hpayload
    · rw [hother _ (by simpa using hp)] at hsub
      rw [port_put_ne hreqs hp] at hresp'
      exact hwide p sub extent hsub payload ⟨resp', v, hresp', hpayload⟩

/-- The timer keeps the subscriptions of the ports that it keeps. -/
theorem Consistent.wide_checkReqTimeouts (hw : Consistent w) (hwide : Wide types w) :
    Wide types w.checkReqTimeouts := by
  apply hwide.of_kept
  intro p sub hsub
  obtain ⟨record, hrecord, -⟩ := hw.checkReqTimeouts.listens_only hsub
  obtain ⟨port, hp, rfl, -, -⟩ := hw.lookup_sweep hrecord
  rw [port_of_lookup hrecord, port_of_lookup hp]
  refine ⟨?_, rfl⟩
  rw [lookup_checkReqTimeouts] at hsub
  split at hsub
  · cases hsub
  · exact hsub

/-- A response leaves the other subscriptions as they are. -/
theorem Wide.remove (hwide : Wide types w) {p : CanardPortID} {port : RequestsPort Dyn}
    (hp : w.reqs.lookup p = some port) (curr : CanardTransferID) :
    Wide types (w.remove p port curr) := by
  have hreqs := (remove_spec w p port curr).1
  apply hwide.of_kept
  intro q sub hsub
  constructor
  · unfold CyphalWorker.remove at hsub
    simp only at hsub
    split at hsub
    · by_cases hq : (CanardTransferKind.Response, q) = (.Response, port.port_id)
      · rw [canardRxUnsubscribe, hq, Assoc.lookup_erase_self] at hsub
        cases hsub
      · rwa [canardRxUnsubscribe, Assoc.lookup_erase_ne hq] at hsub
    · exact hsub
  · by_cases hq : q = p
    · subst hq
      rw [port_put_self hreqs, port_of_lookup hp]
    · rw [port_put_ne hreqs hq]

variable [DecidableEq Dyn]

/-- A call has room for the responses exactly if it does not listen for a service whose responses
do not fit. -/
theorem Consistent.wide_request_iff (hw : Consistent w) (hwide : Wide types w)
    (params : RequestParams) (msg : QVariant) (err : CanardTxPush) :
    Wide types (w.Request types params msg err) ↔
      ListensRoomy types w (.Request params msg err) := by
  cases h : types.lookup_service_types params.type with
  | none =>
    apply iff_of_true
    · rw [CyphalWorker.Request, h]
      exact hwide.emit _
    · intro _ req resp hfound
      rw [h] at hfound
      cases hfound
  | some found =>
    obtain ⟨req, resp⟩ := found
    have hroomy : ListensRoomy types w (.Request params msg err) ↔
        ((w.port params.port).in_flight = [] →
          ((w.port params.port).resp_dyn = none ∨ (w.port params.port).resp_dyn = some resp) →
          Roomy types req resp) := by
      constructor
      · exact fun hr hidle hresp => hr hidle req resp h hresp
      · intro hr hidle req' resp' hfound hresp
        rw [h] at hfound
        obtain ⟨rfl, rfl⟩ := Prod.mk.inj (Option.some.inj hfound)
        exact hr hidle hresp
    have htyped : ((w.port params.port).next resp).resp_dyn = some resp ↔
        ((w.port params.port).resp_dyn = none ∨ (w.port params.port).resp_dyn = some resp) := by
      rw [RequestsPort.next]
      cases (w.port params.port).resp_dyn with
      | none => simp
      | some was => simp
    rw [hroomy, ← htyped]
    unfold CyphalWorker.Request
    simp only [h]
    have hinsert (hresp : ((w.port params.port).next resp).resp_dyn = some resp) :
        Wide types (w.insert types req resp params) ↔
          ((w.port params.port).in_flight = [] →
            ((w.port params.port).next resp).resp_dyn = some resp → Roomy types req resp) := by
      by_cases hidle : (w.port params.port).in_flight = []
      · rw [hw.wide_insert_idle_iff hwide req hidle hresp]
        exact ⟨fun hr _ _ => hr, fun hr => hr hidle hresp⟩
      · exact iff_of_true (hw.wide_insert_busy hwide req resp hidle) (fun hnil => absurd hnil hidle)
    split_ifs with hconflict hbusy
    · apply iff_of_true
      · exact (hw.wide_next hwide params.port resp).emit _
      · exact fun _ hresp => absurd hresp hconflict
    · apply iff_of_true
      · exact (hw.wide_next hwide params.port resp).emit _
      · intro hnil
        simp [hnil] at hbusy
    · cases pushMsg types req msg err with
      | error text => exact hinsert (not_not.mp hconflict)
      | ok sent => exact hinsert (not_not.mp hconflict)

/-- A step keeps room for all responses exactly if it meets the condition. -/
theorem wide_step_iff (hw : Consistent w) (hwide : Wide types w) {a : Action}
    (h : step types w a = some w') : Wide types w' ↔ ListensRoomy types w a := by
  cases a with
  | Request params msg err =>
    obtain rfl := Option.some.inj h
    exact hw.wide_request_iff hwide params msg err
  | checkReqTimeouts =>
    obtain rfl := Option.some.inj h
    exact iff_of_true (hw.wide_checkReqTimeouts hwide) trivial
  | on_frame transfer err =>
    refine iff_of_true ?_ trivial
    rcases on_frame_cases h with rfl | ⟨o, -, rfl⟩ | ⟨p, port, state, res, hp, -, rfl⟩
    · exact hwide
    · exact hwide.emit o
    · exact Wide.remove (hwide.emit _) hp _

/-- In every run of a worker, there is always room for all responses, and these are read as a whole,
exactly when every call that makes the worker listen is one for a service whose responses fit into
the extent of its requests. -/
theorem complete_in_run_iff {config : CyphalConfig} (hnew : construct types config = .ok w)
    {actions : List Action} (hrun : run (step types) w actions = some w') :
    (∀ done t, done <+: actions → run (step types) w done = some t → Complete types t) ↔
      Along (step types) (ListensRoomy types) w actions := by
  have hwide : Wide types w := by
    intro p sub extent hsub
    rw [(construct_canard hnew).2.2.1 p] at hsub
    cases hsub
  refine @forall_run_iff_along _ _ _ (fun w => Consistent w ∧ Wide types w) _ _ ?_ ?_ ?_ _ _
    ⟨Consistent.construct hnew, hwide⟩ _ hrun
  · intro s a t hs hgood hstep
    exact ⟨hs.1.step hstep, (wide_step_iff hs.1 hs.2 hstep).mpr hgood⟩
  · exact fun hs => hs.2.complete hs.1
  · intro s a t hs hbad hstep hcomplete
    exact hbad ((wide_step_iff hs.1 hs.2 hstep).mp hcomplete.1)

/-- The responses of a service without fields fit. -/
theorem complete_empty :
    (∃ t, run (step emptyService) plainWorker
      [.Request ⟨"empty", 1, 7, 5000⟩ .invalid .queued] = some t) ∧
    ∀ done t, done <+: [Action.Request ⟨"empty", 1, 7, 5000⟩ .invalid .queued] →
      run (step emptyService) plainWorker done = some t → Complete emptyService t := by
  have hnew : construct emptyService plainConfig = .ok plainWorker := by rfl
  refine ⟨⟨_, rfl⟩, (complete_in_run_iff hnew rfl).mpr ⟨?_, fun _ _ => trivial⟩⟩
  rintro - req resp - - v payload hpayload
  cases hpayload
  exact Nat.zero_le _

/-- A described service that asks for a register by its number, in two bytes, and answers with its
name, after a byte with the length of the name. -/
def registerList : CyphalGlobal Bool where
  lookup_canard_type _ := none
  lookup_service_types _ := some (false, true)
  name_and_ver _ := "uavcan.register.List.1.0"
  extent dyn := if dyn then 256 else 2
  serialize dyn v :=
    match dyn, v with
    | true, .leaf (.byteArray name) => .ok (UInt8.ofNat name.length :: name)
    | _, _ => .ok [0, 0]
  deserialize dyn payload :=
    match dyn, payload with
    | true, len :: name =>
        .ok (.leaf (.byteArray ((name ++ List.replicate len.toNat 0).take len.toNat)))
    | _, _ => .ok (.leaf (.byteArray []))

/-- A new worker with this service. -/
def registerWorker : CyphalWorker Bool :=
  ⟨[((.Request, 430), (.info_sub none, 0))], [], 0, .invalid, []⟩

/-- The name of a register is cut off after its first byte. -/
theorem register_cut :
    (∃ t, run (step registerList) registerWorker
      [.Request ⟨"uavcan.register.List", 1, 384, 5000⟩ .invalid .queued] = some t ∧
      (t.receive registerList ⟨.Response, 384, 1, 0, [3, 97, 98, 99]⟩ .queued).map (·.output) =
        some (t.output ++ [.resolve 0 (.leaf (.byteArray [97, 0, 0]))]) ∧
      ¬ Complete registerList t) ∧
    registerList.serialize true (.leaf (.byteArray [97, 98, 99])) = .ok [3, 97, 98, 99] ∧
    construct registerList plainConfig = .ok registerWorker := by
  refine ⟨⟨_, rfl, rfl, ?_⟩, rfl, rfl⟩
  rintro ⟨hwide, -⟩
  have hfits := hwide 384 _ 2 rfl [3, 97, 98, 99] ⟨true, .leaf (.byteArray [97, 98, 99]), rfl, rfl⟩
  exact absurd hfits (by decide)

end Radapter.Cyphal
