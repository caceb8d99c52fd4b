import OlivePiccolo.Library.Errno
import OlivePiccolo.Library.Runs
import OlivePiccolo.RubicAgent.Info

/-!
# The cached information

`rubic_agent_register_runtime` and `rubic_agent_register_storage` take the first entry without a name,
and leave the cached document alone. What `rubic.info` is answered with is up to date as long as no
registration comes after the first answer (`replies_upToDate`).

A run keeps a record of the registrations that have returned 0 and of the replies, each reply with
the registrations before it (`InfoLog`). The invariant is that the tables are filled from the front
with what has been registered, and that a cached document is the document of the tables.
-/

namespace OlivePiccolo.RubicAgent

open Bson Rpc Runs

/-! ## The code -/

/-- The first entry without a name takes the values, if there is one. -/
def fillFirst {α : Type*} (a : α) : List (Option α) → Option (List (Option α))
  | [] => none
  | none :: l => some (some a :: l)
  | some b :: l => (fillFirst a l).map (some b :: ·)

theorem fillFirst_length {α : Type*} {a : α} {l l' : List (Option α)}
    (h : fillFirst a l = some l') : l'.length = l.length := by
  induction l generalizing l' with
  | nil => cases h
  | cons b l ih =>
    cases b with
    | none =>
      cases h
      rfl
    | some b =>
      obtain ⟨l'', h', rfl⟩ := Option.map_eq_some_iff.mp h
      rw [List.length_cons, List.length_cons, ih h']

section Registration

variable {cfg : InfoConfig}

/-- `rubic_agent_register_runtime`. -/
def rubicAgentRegisterRuntime (runtime : RuntimeEntry) (s : InfoState cfg) : ℤ × InfoState cfg :=
  match h : fillFirst runtime s.runtimes with
  | some runtimes =>
    (0, { s with
      runtimes := runtimes
      runtimes_length := (fillFirst_length h).trans s.runtimes_length })
  | none => (-ENOSPC, s)

/-- `rubic_agent_register_storage`. -/
def rubicAgentRegisterStorage (storage : StorageEntry) (s : InfoState cfg) : ℤ × InfoState cfg :=
  match h : fillFirst storage s.storages with
  | some storages =>
    (0, { s with
      storages := storages
      storages_length := (fillFirst_length h).trans s.storages_length })
  | none => (-ENOSPC, s)

variable {s : InfoState cfg}

theorem rubicAgentRegisterRuntime_none {runtime : RuntimeEntry}
    (h : fillFirst runtime s.runtimes = none) :
    rubicAgentRegisterRuntime runtime s = (-ENOSPC, s) := by
  unfold rubicAgentRegisterRuntime
  split
  · next heq => cases h.symm.trans heq
  · rfl

theorem rubicAgentRegisterRuntime_some {runtime : RuntimeEntry} {l : List (Option RuntimeEntry)}
    (h : fillFirst runtime s.runtimes = some l) :
    rubicAgentRegisterRuntime runtime s = (0, { s with
      runtimes := l
      runtimes_length := (fillFirst_length h).trans s.runtimes_length }) := by
  unfold rubicAgentRegisterRuntime
  split
  · next heq =>
    cases h.symm.trans heq
    rfl
  · next heq => cases h.symm.trans heq

theorem rubicAgentRegisterStorage_none {storage : StorageEntry}
    (h : fillFirst storage s.storages = none) :
    rubicAgentRegisterStorage storage s = (-ENOSPC, s) := by
  unfold rubicAgentRegisterStorage
  split
  · next heq => cases h.symm.trans heq
  · rfl

theorem rubicAgentRegisterStorage_some {storage : StorageEntry} {l : List (Option StorageEntry)}
    (h : fillFirst storage s.storages = some l) :
    rubicAgentRegisterStorage storage s = (0, { s with
      storages := l
      storages_length := (fillFirst_length h).trans s.storages_length }) := by
  unfold rubicAgentRegisterStorage
  split
  · next heq =>
    cases h.symm.trans heq
    rfl
  · next heq => cases h.symm.trans heq

end Registration

/-! ## Runs -/

/-- A call of one of the three functions. -/
inductive InfoCall
  | registerRuntime (runtime : RuntimeEntry)
  | registerStorage (storage : StorageEntry)
  | info (heap : InfoHeap)

/-- A reply to `rubic.info`, and what had been registered before the request. -/
structure InfoReply where
  out : Mem
  runtimes : List RuntimeEntry
  storages : List StorageEntry

/-- The state, the entries whose registration has returned 0, and the replies so far. -/
structure InfoLog (cfg : InfoConfig) where
  state : InfoState cfg
  runtimes : List RuntimeEntry
  storages : List StorageEntry
  replies : List InfoReply

/-- The state before any call: all bytes are zero. -/
def InfoState.start (cfg : InfoConfig) : InfoState cfg where
  runtimes := List.replicate cfg.maxRuntimes none
  storages := List.replicate cfg.maxStorages none
  cachedInfo := none
  runtimes_length := List.length_replicate
  storages_length := List.length_replicate

def InfoLog.start (cfg : InfoConfig) : InfoLog cfg := ⟨.start cfg, [], [], []⟩

/-- One call. -/
def infoStep {cfg : InfoConfig} (log : InfoLog cfg) : InfoCall → Access (InfoLog cfg)
  | .registerRuntime runtime =>
    let (result, state) := rubicAgentRegisterRuntime runtime log.state
    some { log with
      state := state
      runtimes := if result = 0 then log.runtimes ++ [runtime] else log.runtimes }
  | .registerStorage storage =>
    let (result, state) := rubicAgentRegisterStorage storage log.state
    some { log with
      state := state
      storages := if result = 0 then log.storages ++ [storage] else log.storages }
  | .info heap => do
    let ((result, _), state) ← rubicAgentMethodInfo heap log.state
    match result with
    | some out =>
      return { log with
        state := state
        replies := log.replies ++ [⟨out, log.runtimes, log.storages⟩] }
    | none => return { log with state := state }

/-- The document lists the runtimes, whatever the keys of the array are, and the storages. -/
structure Lists (es : List Element) (runtimes : List RuntimeEntry) (storages : List StorageEntry) :
    Prop where
  names : (es.map Element.name).Nodup
  runtimes : ∃ elements, .mk keyRuntimes (.array elements) ∈ es ∧
    elements.map Element.value = runtimes.map fun runtime => .document (runtimeDocument runtime)
  storages : .mk keyStorages (.document (storageElements storages)) ∈ es

/-- The reply lists exactly what had been registered before the request. -/
def InfoReply.UpToDate (reply : InfoReply) : Prop :=
  ∃ es, IsDocument reply.out es ∧ reply.out.length = (encodeDocument es).length ∧
    Lists es reply.runtimes reply.storages

/-- No entry is registered while there is a cached document; what is to be listed fits. -/
def InfoCall.InTime {cfg : InfoConfig} (log : InfoLog cfg) : InfoCall → Prop
  | .registerRuntime _ => log.state.cachedInfo = none ∨ none ∉ log.state.runtimes
  | .registerStorage _ => log.state.cachedInfo = none ∨ none ∉ log.state.storages
  | .info _ => FitsWork cfg log.runtimes log.storages

/-! ## Tables -/

section Tables

variable {α : Type*} {a : α} {l l' : List (Option α)}

/-- The table is filled from the front with these entries. -/
def Filled (l : List (Option α)) (entries : List α) : Prop :=
  ∃ n, l = entries.map some ++ List.replicate n none

theorem Filled.registered {entries : List α} (h : Filled l entries) : registered l = entries := by
  obtain ⟨n, rfl⟩ := h
  induction entries with
  | nil =>
    cases n with
    | zero => rfl
    | succ n => rfl
  | cons e entries ih =>
    rw [List.map_cons, List.cons_append, RubicAgent.registered, ih]

/-- Registering: the next entry of the table, if there is room. -/
theorem Filled.fillFirst {entries : List α} (h : Filled l entries) (a : α) :
    (fillFirst a l = none ∧ none ∉ l) ∨
      ∃ l', fillFirst a l = some l' ∧ none ∈ l ∧ Filled l' (entries ++ [a]) := by
  obtain ⟨n, rfl⟩ := h
  induction entries with
  | nil =>
    cases n with
    | zero => exact .inl ⟨rfl, List.not_mem_nil⟩
    | succ n => exact .inr ⟨_, rfl, List.mem_cons_self, n, rfl⟩
  | cons e entries ih =>
    rw [List.map_cons, List.cons_append, RubicAgent.fillFirst]
    rcases ih with ⟨hnone, hmem⟩ | ⟨l', hsome, hmem, m, rfl⟩
    · refine .inl ⟨by rw [hnone]; rfl, ?_⟩
      rw [List.mem_cons, not_or]
      exact ⟨nofun, hmem⟩
    · refine .inr ⟨_, by rw [hsome]; rfl, List.mem_cons_of_mem _ hmem, m, ?_⟩
      rw [List.cons_append, List.map_cons, List.cons_append]

end Tables

/-! ## The invariant -/

section Invariant

variable {cfg : InfoConfig} {log log' : InfoLog cfg}

/-- What holds between the calls of a run in time. -/
structure InfoLog.Valid (log : InfoLog cfg) : Prop where
  runtimes : Filled log.state.runtimes log.runtimes
  storages : Filled log.state.storages log.storages
  cached : log.state.cachedInfo = none ∨
    log.state.cachedInfo = some (encodeDocument (infoOf log.state))
  replies : ∀ reply ∈ log.replies, reply.UpToDate

theorem infoLog_start_valid : (InfoLog.start cfg).Valid :=
  ⟨⟨_, rfl⟩, ⟨_, rfl⟩, .inl rfl, fun _ h => absurd h List.not_mem_nil⟩

theorem runtimeElements_values (key : ℕ → CString) (i : ℕ) (runtimes : List RuntimeEntry) :
    (runtimeElements key i runtimes).map Element.value =
      runtimes.map fun runtime => .document (runtimeDocument runtime) := by
  induction runtimes generalizing i with
  | nil => rfl
  | cons runtime runtimes ih =>
    rw [runtimeElements, List.map_cons, List.map_cons, ih]
    rfl

theorem lists_infoDocument (key : ℕ → CString) (runtimes : List RuntimeEntry)
    (storages : List StorageEntry) :
    Lists (infoDocument key runtimes storages) runtimes storages := by
  refine ⟨infoElements_names _ _, ⟨_, ?_, runtimeElements_values key 0 runtimes⟩, ?_⟩
  · exact List.mem_cons_of_mem _ List.mem_cons_self
  · exact List.mem_cons_of_mem _ (List.mem_cons_of_mem _ List.mem_cons_self)

theorem InfoLog.Valid.infoOf_eq (h : log.Valid) :
    infoOf log.state = infoDocument subscript log.runtimes log.storages := by
  rw [infoOf, h.runtimes.registered, h.storages.registered]

theorem infoStep_registerRuntime (log : InfoLog cfg) (runtime : RuntimeEntry)
    {l : List (Option RuntimeEntry)} (h : fillFirst runtime log.state.runtimes = some l) :
    infoStep log (.registerRuntime runtime) = some { log with
      state := { log.state with
        runtimes := l
        runtimes_length := (fillFirst_length h).trans log.state.runtimes_length }
      runtimes := log.runtimes ++ [runtime] } := by
  simp only [infoStep, rubicAgentRegisterRuntime_some h]
  rfl

theorem infoStep_registerStorage (log : InfoLog cfg) (storage : StorageEntry)
    {l : List (Option StorageEntry)} (h : fillFirst storage log.state.storages = some l) :
    infoStep log (.registerStorage storage) = some { log with
      state := { log.state with
        storages := l
        storages_length := (fillFirst_length h).trans log.state.storages_length }
      storages := log.storages ++ [storage] } := by
  simp only [infoStep, rubicAgentRegisterStorage_some h]
  rfl

theorem infoStep_reply (log : InfoLog cfg) {heap : InfoHeap} {out : Mem} {errno : ℤ}
    {state : InfoState cfg}
    (h : rubicAgentMethodInfo heap log.state = some ((some out, errno), state)) :
    infoStep log (.info heap) = some { log with
      state := state
      replies := log.replies ++ [⟨out, log.runtimes, log.storages⟩] } := by
  simp only [infoStep, h, Option.bind_eq_bind, Option.bind_some]
  rfl

theorem infoStep_noReply (log : InfoLog cfg) {heap : InfoHeap} {errno : ℤ} {state : InfoState cfg}
    (h : rubicAgentMethodInfo heap log.state = some ((none, errno), state)) :
    infoStep log (.info heap) = some { log with state := state } := by
  simp only [infoStep, h, Option.bind_eq_bind, Option.bind_some]
  rfl

theorem valid_registerRuntime (h : log.Valid) {runtime : RuntimeEntry}
    (hok : InfoCall.InTime log (.registerRuntime runtime)) :
    ∃ log', infoStep log (.registerRuntime runtime) = some log' ∧ log'.Valid := by
  rcases h.runtimes.fillFirst runtime with ⟨hnone, -⟩ | ⟨l', hsome, hfree, hfilled⟩
  · refine ⟨log, ?_, h⟩
    simp only [infoStep, rubicAgentRegisterRuntime_none hnone]
    rfl
  · have hcached := hok.resolve_right fun hfull => hfull hfree
    exact ⟨_, infoStep_registerRuntime log runtime hsome, hfilled, h.storages, .inl hcached, h.replies⟩

theorem valid_registerStorage (h : log.Valid) {storage : StorageEntry}
    (hok : InfoCall.InTime log (.registerStorage storage)) :
    ∃ log', infoStep log (.registerStorage storage) = some log' ∧ log'.Valid := by
  rcases h.storages.fillFirst storage with ⟨hnone, -⟩ | ⟨l', hsome, hfree, hfilled⟩
  · refine ⟨log, ?_, h⟩
    simp only [infoStep, rubicAgentRegisterStorage_none hnone]
    rfl
  · have hcached := hok.resolve_right fun hfull => hfull hfree
    exact ⟨_, infoStep_registerStorage log storage hsome, h.runtimes, hfilled, .inl hcached, h.replies⟩

theorem valid_info (h : log.Valid) {heap : InfoHeap} (hok : InfoCall.InTime log (.info heap)) :
    ∃ log', infoStep log (.info heap) = some log' ∧ log'.Valid := by
  have hfits : FitsWork cfg (registered log.state.runtimes) (registered log.state.storages) := by
    rw [h.runtimes.registered, h.storages.registered]
    exact hok
  have hlt := infoOf_length_lt hfits
  obtain ⟨⟨result, errno⟩, state, hcall, hresult, hstate⟩ :=
    rubicAgentMethodInfo_eq heap h.cached hfits
  -- the tables stay, and a document that is cached has been made of them
  have hkept : state.runtimes = log.state.runtimes ∧ state.storages = log.state.storages ∧
      (state.cachedInfo = none ∨ state.cachedInfo = some (encodeDocument (infoOf state))) := by
    rcases hstate with rfl | rfl
    · exact ⟨rfl, rfl, h.cached⟩
    · exact ⟨rfl, rfl, .inr rfl⟩
  obtain ⟨hruntimes, hstorages, hcached⟩ := hkept
  cases result with
  | none =>
    exact ⟨_, infoStep_noReply log hcall, hruntimes ▸ h.runtimes, hstorages ▸ h.storages, hcached,
      h.replies⟩
  | some out =>
    refine ⟨_, infoStep_reply log hcall, hruntimes ▸ h.runtimes, hstorages ▸ h.storages, hcached, ?_⟩
    intro reply hreply
    rcases List.mem_append.mp hreply with hold | hnew
    · exact h.replies reply hold
    · obtain rfl := List.mem_singleton.mp hnew
      obtain rfl := Option.some.inj (hresult.resolve_left nofun)
      refine ⟨_, ⟨Mem.hasAt_self _, hlt⟩, rfl, ?_⟩
      rw [h.infoOf_eq]
      exact lists_infoDocument _ _ _

/-- A call in time returns, and keeps the invariant. -/
theorem valid_step (h : log.Valid) {call : InfoCall} (hok : call.InTime log) :
    ∃ log', infoStep log call = some log' ∧ log'.Valid := by
  cases call with
  | registerRuntime runtime => exact valid_registerRuntime h hok
  | registerStorage storage => exact valid_registerStorage h hok
  | info heap => exact valid_info h hok

end Invariant

/-- **The cached information.** If no runtime and no storage is registered while there is a cached
document, every reply to `rubic.info` lists exactly what had been registered before the request. -/
theorem replies_upToDate {cfg : InfoConfig} {log : InfoLog cfg} {calls : List InfoCall}
    (h : Path infoStep (fun log call => call.InTime log) (.start cfg) calls log) :
    (∀ reply ∈ log.replies, reply.UpToDate) ∧
      ∀ call : InfoCall, call.InTime log → (infoStep log call).isSome := by
  have hvalid : log.Valid := h.invariant infoLog_start_valid fun log call log' hlog hok hstep => by
    obtain ⟨log'', hstep', hvalid⟩ := valid_step hlog hok
    rw [hstep] at hstep'
    cases hstep'
    exact hvalid
  refine ⟨hvalid.replies, fun call hok => ?_⟩
  obtain ⟨log', hstep, -⟩ := valid_step hvalid hok
  rw [hstep]
  rfl

/-! ## A registration that is too late -/

section Late

theorem storageElements_injective : Function.Injective storageElements := by
  refine List.map_injective_iff.mpr fun a b h => ?_
  obtain ⟨name, path⟩ := a
  obtain ⟨name', path'⟩ := b
  simp only [Element.mk.injEq, Value.string.injEq] at h
  obtain ⟨rfl, hpath⟩ := h
  obtain ⟨bytes, hbytes⟩ := path
  obtain ⟨bytes', hbytes'⟩ := path'
  cases hpath
  rfl

/-- A document with other storages. -/
theorem not_upToDate {runtimes runtimes' : List RuntimeEntry} {storages storages' : List StorageEntry}
    (hlt : (encodeDocument (infoDocument subscript runtimes storages)).length < 2 ^ 31)
    (hne : storages ≠ storages') :
    ¬ InfoReply.UpToDate
      ⟨encodeDocument (infoDocument subscript runtimes storages), runtimes', storages'⟩ := by
  rintro ⟨es, hes, -, hlists⟩
  have hmem := hlists.storages
  rw [hes.unique ⟨Mem.hasAt_self _, hlt⟩] at hmem
  unfold infoDocument infoElements at hmem
  simp only [List.mem_cons, List.not_mem_nil, Element.mk.injEq, reduceCtorEq, and_false, false_or,
    or_false, Value.document.injEq, true_and] at hmem
  exact hne (storageElements_injective hmem).symm

theorem fits_none : FitsWork twoOfEach [] [] :=
  ⟨fun _ h => absurd h List.not_mem_nil, by decide, by decide⟩

/-- The calls of a boot with two runtimes and two storages, and two requests. -/
def bootCalls : List InfoCall :=
  [.registerRuntime duktape, .registerStorage internalStorage, .registerStorage cardStorage,
    .registerRuntime lua, .info plentyOfMemory, .info plentyOfMemory]

/-- `replies_upToDate` of the boot: the second reply is the cached document. -/
theorem replies_upToDate_boot : ∃ log,
    Path infoStep (fun log call => call.InTime log) (.start twoOfEach) bootCalls log ∧
      log.replies.length = 2 ∧ (∀ reply ∈ log.replies, reply.UpToDate) ∧
      ∀ call : InfoCall, call.InTime log → (infoStep log call).isSome := by
  have hmade := plentyOfMemory_reply (s := everything) (.inl rfl) fits_everything
  have hcached := plentyOfMemory_reply (s := { everything with
    cachedInfo := some (encodeDocument (infoOf everything)) }) (.inr rfl) fits_everything
  have hduktape : Path infoStep (fun log call => call.InTime log) (.start twoOfEach)
      [.registerRuntime duktape] _ :=
    .snoc .nil (.inl rfl) (infoStep_registerRuntime _ duktape rfl)
  have hinternal := hduktape.snoc
    (show InfoCall.InTime _ (.registerStorage internalStorage) from .inl rfl)
    (infoStep_registerStorage _ internalStorage rfl)
  have hcard := hinternal.snoc
    (show InfoCall.InTime _ (.registerStorage cardStorage) from .inl rfl)
    (infoStep_registerStorage _ cardStorage rfl)
  have hlua := hcard.snoc (show InfoCall.InTime _ (.registerRuntime lua) from .inl rfl)
    (infoStep_registerRuntime _ lua rfl)
  have hfirst := hlua.snoc (show InfoCall.InTime _ (.info plentyOfMemory) from fits_everything)
    (infoStep_reply _ hmade)
  have hpath := hfirst.snoc (show InfoCall.InTime _ (.info plentyOfMemory) from fits_everything)
    (infoStep_reply _ hcached)
  exact ⟨_, hpath, rfl, replies_upToDate hpath⟩

/-- The claim fails for a run in which a storage is registered after the first reply. -/
theorem not_replies_upToDate : ¬ ∀ (cfg : InfoConfig) (log : InfoLog cfg) (calls : List InfoCall),
    Path infoStep anyStep (.start cfg) calls log → ∀ reply ∈ log.replies, reply.UpToDate := by
  intro h
  have hreply := plentyOfMemory_reply (s := .start twoOfEach) (.inl rfl) fits_none
  have hlt : (encodeDocument (infoDocument subscript [] [])).length < 2 ^ 31 :=
    infoOf_length_lt (s := .start twoOfEach) fits_none
  have hinfo := infoStep_reply (.start twoOfEach) hreply
  have hregister := infoStep_registerStorage
    ⟨{ InfoState.start twoOfEach with
        cachedInfo := some (encodeDocument (infoOf (.start twoOfEach))) }, [], [],
      [⟨encodeDocument (infoOf (.start twoOfEach)), [], []⟩]⟩ internalStorage rfl
  -- the document of the first reply is there still
  have hagain := infoStep_reply
    ⟨{ InfoState.start twoOfEach with
        storages := [some internalStorage, none]
        storages_length := rfl
        cachedInfo := some (encodeDocument (infoOf (.start twoOfEach))) }, [], [internalStorage],
      [⟨encodeDocument (infoOf (.start twoOfEach)), [], []⟩]⟩
    (rubicAgentMethodInfo_cached rfl (copyInfo_plentyOfMemory hlt))
  have hpath : Path infoStep anyStep (.start twoOfEach)
      [.info plentyOfMemory, .registerStorage internalStorage, .info plentyOfMemory] _ :=
    .snoc (.snoc (.snoc .nil trivial hinfo) trivial hregister) trivial hagain
  have hstale := h twoOfEach _ _ hpath _ (List.mem_append_right _ List.mem_cons_self)
  exact not_upToDate hlt (List.cons_ne_nil _ _).symm hstale

end Late

end OlivePiccolo.RubicAgent
