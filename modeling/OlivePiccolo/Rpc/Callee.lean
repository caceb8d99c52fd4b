import OlivePiccolo.Rpc.Reply

/-!
# What a request calls

`peridot_rpc_server_service` up to the call of a method. The pointer `params` that it passes on is
`NULL` unless the request has a member `params` that is a document or an array
(`params_isSome_iff`).
-/

namespace OlivePiccolo.Rpc

open Bson

/-- `peridot_rpc_server_service` up to the call of a method: the method, and `params`. -/
def callee (env : Surroundings) (job : Mem) : Access (Option (MethodEntry × Option ℤ)) := do
  let (found, keys) ← bsonGetProps job [(keyJsonrpc, env.offJsonrpc), (keyMethod, env.offMethod),
    (keyParams, env.offParams), (keyId, env.offId)]
  let off i := (keys.getD i (keyId, -1)).2
  if found ≤ 0 then return none
  else
    let jsonrpc ← bsonGetString (some job) (off 0)
    if !(← isJsonrpcVer job jsonrpc) then return none
    else
      match ← bsonGetString (some job) (off 1) with
      | none => return none
      | some method =>
        match ← findMethod job method env.methods with
        | none => return none
        | some entry => return some (entry, ← bsonGetSubdocument (some job) (off 2))

/-- The member `params` of a request is a document or an array. -/
def HasParams (es : List Element) : Prop :=
  ∃ v, valueOf keyParams es = some v ∧ (v.typeCode = 0x04 ∨ v.typeCode = 0x03)

section

variable {env : Surroundings} {job : Mem} {es : List Element} {entry : MethodEntry} {p : Option ℤ}

theorem callee_cases (h : callee env job = some (some (entry, p))) :
    ∃ found keys jsonrpc name, bsonGetProps job [(keyJsonrpc, env.offJsonrpc),
        (keyMethod, env.offMethod), (keyParams, env.offParams), (keyId, env.offId)] =
          some (found, keys) ∧ 0 < found ∧
      bsonGetString (some job) (keys.getD 0 (keyId, -1)).2 = some jsonrpc ∧
      isJsonrpcVer job jsonrpc = some true ∧
      bsonGetString (some job) (keys.getD 1 (keyId, -1)).2 = some (some name) ∧
      findMethod job name env.methods = some (some entry) ∧
      bsonGetSubdocument (some job) (keys.getD 2 (keyId, -1)).2 = some p := by
  obtain ⟨⟨found, keys⟩, hprops, h⟩ := Option.bind_eq_some_iff.mp h
  dsimp only at h
  split_ifs at h with hfound
  · cases h
  obtain ⟨jsonrpc, hjsonrpc, h⟩ := Option.bind_eq_some_iff.mp h
  obtain ⟨isVer, hver, h⟩ := Option.bind_eq_some_iff.mp h
  cases isVer with
  | false => cases h
  | true =>
    obtain ⟨name, hname, h⟩ := Option.bind_eq_some_iff.mp h
    cases name with
    | none => cases h
    | some name =>
      obtain ⟨found', hmethod, h⟩ := Option.bind_eq_some_iff.mp h
      cases found' with
      | none => cases h
      | some entry' =>
        obtain ⟨params, hparams, h⟩ := Option.bind_eq_some_iff.mp h
        cases h
        exact ⟨found, keys, jsonrpc, name, hprops, not_le.mp hfound, hjsonrpc, hver, hname, hmethod,
          hparams⟩

/-- **The call.** The service calls this method with this `params`. -/
theorem service_of_callee (h : callee env job = some (some (entry, p))) :
    ∃ offId, peridotRpcServerService env job = callMethod env job offId p entry.handler := by
  obtain ⟨found, keys, jsonrpc, name, hprops, hfound, hjsonrpc, hver, hname, hmethod, hparams⟩ :=
    callee_cases h
  refine ⟨(keys.getD 3 (keyId, -1)).2, ?_⟩
  simp only [peridotRpcServerService, hprops, hjsonrpc, hver, hname, hmethod, hparams,
    if_neg (not_le.mpr hfound), Bool.not_true, Bool.false_eq_true, if_false, Option.bind_eq_bind,
    Option.bind_some]

theorem mem_methods_of_callee (h : callee env job = some (some (entry, p))) :
    entry ∈ env.methods := by
  obtain ⟨-, -, -, name, -, -, -, -, -, hmethod, -⟩ := callee_cases h
  generalize env.methods = entries at hmethod
  induction entries with
  | nil => cases hmethod
  | cons entry' entries ih =>
    obtain ⟨isName, -, hmethod⟩ := Option.bind_eq_some_iff.mp hmethod
    cases isName with
    | true =>
      cases hmethod
      exact List.mem_cons_self
    | false => exact List.mem_cons_of_mem _ (ih hmethod)

/-- **The pointer.** In a well-formed request, the member `params` decides whether it is `NULL`. -/
theorem params_isSome_iff (hdoc : IsDocument job es) (hscope : ScopeHarmless es serviceKeys)
    (h : callee env job = some (some (entry, p))) : p.isSome = true ↔ HasParams es := by
  obtain ⟨found, keys, -, -, hprops, -, -, -, -, -, hparams⟩ := callee_cases h
  have hnodup : serviceKeys.Nodup := by decide
  have hlookup := hprops.symm.trans (bsonGetProps_eq_lookup hdoc hnodup hscope)
  obtain ⟨rfl, rfl⟩ := Prod.mk.inj (Option.some.inj hlookup)
  change bsonGetSubdocument (some job) (offsetOf keyParams es 4) = some p at hparams
  cases hvalue : valueOf keyParams es with
  | none =>
    rw [valueOf_none hvalue] at hparams
    cases hparams
    refine iff_of_false Bool.false_ne_true ?_
    rintro ⟨v, hv, -⟩
    cases hvalue.symm.trans hv
  | some v =>
    obtain ⟨front, e, back, rfl, -, rfl, hoff⟩ := valueOf_split hvalue
    rw [hoff, bsonGetSubdocument, seekData_eq hdoc] at hparams
    by_cases htype : e.value.typeCode = 0x04 ∨ e.value.typeCode = 0x03
    · rw [if_pos htype] at hparams
      cases hparams
      exact iff_of_true rfl ⟨e.value, hvalue, htype⟩
    · rw [if_neg htype] at hparams
      cases hparams
      refine iff_of_false Bool.false_ne_true ?_
      rintro ⟨v, hv, hv'⟩
      cases hvalue.symm.trans hv
      exact htype hv'

end

end OlivePiccolo.Rpc
