import CrudeOAuth.Sasl.ClientPlugin

/-!
# Connections of the client plugin

A host makes calls for any number of connections, one after the other, in any order that its
rules allow, and fills in and frees prompt arrays in between. In every such run

* no call looks into memory that is not live, or frees it twice, and what is live is held by the
  host, or is the output of a connection, so nothing is lost (`client_plugin_safe`);
* a step does in memory what it does to the values in it (`client_refines`);
* what a connection has published stays as it is until its next step, and is the answer to an
  error document or a response (`client_output_stays`).
-/

namespace CrudeOAuth.Sasl

open Rust Machine Relation

/-- What a step shows to the host as output, if nothing was there before. -/
def Published.Shows (m : ClientHeap) : Published → OutBuf → Prop
  | .left, out | .cleared, out => out = none
  | .at x, out => ∃ data, m.buffer x = some data ∧ out = .publish data

/-- The context at an address. -/
def ClientHeap.view (m : ClientHeap) (a : Address) : Option ClientContext :=
  (m.context a).map fun output => { output := (output.bind m.buffer).getD [] }

/-- What a step in memory leaves behind is what the step does. -/
structure ClientAnswer.Agrees (answer : ClientAnswer) (conn : Address) (result : ClientResult) : Prop where
  rc : answer.rc = guard result.rc
  oparams : answer.oparams = some result.oparams
  prompts : answer.memory.readPrompts answer.promptNeed = some result.prompts
  ctx : answer.memory.view conn = some result.ctx
  out : answer.published.Shows answer.memory result.out

section

variable {m : ClientHeap} {x : Address}

theorem ClientHeap.context_eq_some {output : Option Address} :
    m.context x = some output ↔ m x = some (.context output) := by
  unfold ClientHeap.context
  rcases m x with _ | (_ | _ | _ | _) <;> simp

theorem ClientHeap.buffer_eq_some {data : Bytes} : m.buffer x = some data ↔ m x = some (.buffer data) := by
  unfold ClientHeap.buffer
  rcases m x with _ | (_ | _ | _ | _) <;> simp

theorem view_eq_some {output : Option Address} (h : m x = some (.context output)) {ctx : ClientContext}
    (hctx : (output.bind m.buffer).getD [] = ctx.output) : m.view x = some ctx := by
  rw [ClientHeap.view, ClientHeap.context_eq_some.2 h, Option.map_some, hctx]

theorem readIn_at {before : Option (Address × Bytes)} {data : Bytes} (h : m x = some (.buffer data)) :
    Published.readIn m before (.at x) = some (x, data) := by
  rw [Published.readIn, ClientHeap.buffer_eq_some.2 h]
  rfl

theorem ended_iff {entries : List Interact} : Ended entries ↔ entries.any (·.id == saslCbListEnd) = true := by
  simp [Ended]

theorem ClientHeap.prompts_eq_some {entries : List Interact} :
    m.prompts x = some entries ↔ m x = some (.prompts entries) ∧ Ended entries := by
  unfold ClientHeap.prompts
  rcases m x with _ | (_ | _ | _ | entries')
  · simp
  · simp
  · simp
  · simp
  · simp only [Option.some.injEq, ClientBlock.prompts.injEq, ended_iff]
    constructor
    · intro h
      split at h
      · rename_i hany
        obtain rfl := Option.some.inj h
        exact ⟨rfl, hany⟩
      · cases h
    · rintro ⟨rfl, hany⟩
      rw [if_pos hany]

theorem ended_requested (wantUser wantPass : Bool) : Ended (requested wantUser wantPass) := by
  cases wantUser <;> cases wantPass <;> simp [Ended, requested, request]

/-- A slot whose array the host has. -/
def ClientHost.HasArray (s : ClientHost) (slot : Option (Option Address)) : Prop :=
  ∀ a, slot = some (some a) → s.arrays a = true

theorem holds_self {arrays : Address → Bool} {slot : Option (Option Address)}
    (h : ∀ a, slot = some (some a) → arrays a = true) : holds (holds arrays slot false) slot true = arrays := by
  rcases slot with _ | _ | a
  · rfl
  · rfl
  · have ha := h a rfl
    funext y
    by_cases hy : y = a <;> simp [holds, hy, ha]

theorem holds_released (arrays : Address → Bool) (slot : Option (Option Address)) (b : Bool) :
    holds arrays (slot.map fun _ => none) b = arrays := by
  cases slot <;> rfl

theorem releases_eq_some {call : ClientCall} (h : call.releases = some x) : call.promptNeed = some (some x) := by
  simp only [ClientCall.releases, Option.bind_eq_bind, Option.bind_eq_some_iff] at h
  obtain ⟨⟨utils, params, oparams⟩, -, h⟩ := h
  split at h
  · rcases hslot : call.promptNeed with _ | _ | a <;> rw [hslot] at h <;> cases h
    rfl
  · cases h

end

namespace ClientHost

variable {s s' : ClientHost} {conn : Address} {c : ClientConnection}

theorem Safe.of_moves_star (hs : s.Safe) (h : ReflTransGen Moves s s') : s'.Safe := by
  induction h with
  | refl => exact hs
  | tail _ hmove ih => exact ih.of_moves hmove

/-- The prompts in a slot whose array the host has can be read, -/
theorem Safe.exists_readPrompts (hs : s.Safe) {slot : Option (Option Address)} (h : s.HasArray slot) :
    ∃ prompts, s.memory.readPrompts slot = some prompts := by
  rcases slot with _ | _ | a
  · exact ⟨_, rfl⟩
  · exact ⟨_, rfl⟩
  · obtain ⟨entries, hentries, hended⟩ := (hs.safeAt a).array (h a rfl)
    exact ⟨_, by rw [ClientHeap.readPrompts, ClientHeap.prompts_eq_some.2 ⟨hentries, hended⟩]; rfl⟩

/-- and released. -/
theorem Safe.exists_release (hs : s.Safe) {slot : Option (Option Address)} (h : s.HasArray slot) :
    ∃ memory, s.memory.release true slot = some memory ∧
      ReflTransGen Moves s { s with memory, arrays := holds s.arrays slot false } ∧
      ∀ x, memory x = if slot = some (some x) then none else s.memory x := by
  rcases slot with _ | _ | a
  · exact ⟨_, rfl, .refl, fun x => rfl⟩
  · exact ⟨_, rfl, .refl, fun x => rfl⟩
  · have ha := h a rfl
    obtain ⟨entries, hentries, -⟩ := (hs.safeAt a).array ha
    obtain ⟨memory, hmemory, happly, -⟩ := hs.tidy.drop (mem_roots_of_array ha) hentries
    refine ⟨memory, by rw [ClientHeap.release, if_pos rfl, hmemory], .single (.released ha hmemory), fun x => ?_⟩
    rw [happly]
    refine if_congr ?_ rfl rfl
    simp [ClientBlock.owns, eq_comm]

theorem addStep_some (hc : s.conns conn = some c) (call : ClientCall) (answer : ClientAnswer) :
    s.addStep (some conn) call answer = { s with
      memory := answer.memory
      arrays := holds (holds s.arrays call.promptNeed false) answer.promptNeed true
      conns := Function.update s.conns conn (some {
        oparams := answer.oparams.getD c.oparams
        published := answer.published.readIn answer.memory c.published }) } := by
  simp [addStep, hc]

/-- What a step finds in memory. -/
structure Finds (s : ClientHost) (conn : Address) (c : ClientConnection) (call : ClientCall) (old : Option Address)
    (step : ClientStep) : Prop where
  opened : s.conns conn = some c
  array : s.HasArray call.promptNeed
  free : call.free = true
  context : s.memory conn = some (.context old)
  prompts : s.memory.readPrompts call.promptNeed = some step.prompts
  ctx : (old.bind s.memory.buffer).getD [] = step.ctx.output
  out : step.out = none
  oparams : step.oparams = c.oparams

/-- The step answers in memory, does what it does to the values there, and moves the host. -/
def Answers (s : ClientHost) (conn : Address) (call : ClientCall) (old : Option Address) (output array : Address)
    (step : ClientStep) : Prop :=
  ∃ answer, step.runIn conn old call output array s.memory = some answer ∧ answer.Agrees conn step.run ∧
    ReflTransGen Moves s (s.addStep (some conn) call answer)

variable {call : ClientCall} {old : Option Address} {output array : Address} {step : ClientStep}

/-- A step that leaves the memory as it is. -/
theorem Finds.answers_of_stopped (h : s.Finds conn c call old step) (published : Published) {rc : Int} {out : OutBuf}
    (hstep : step.run = step.stopped rc out)
    (hrun : step.runIn conn old call output array s.memory = some
      { rc := guard step.run.rc, memory := s.memory, promptNeed := call.promptNeed, oparams := some step.run.oparams
        published })
    (hpublished : published = .left ∧ out = step.out ∨ published = .cleared ∧ out = none) :
    s.Answers conn call old output array step := by
  refine ⟨_, hrun, ⟨rfl, rfl, ?_, view_eq_some h.context ?_, ?_⟩, ?_⟩
  · rw [h.prompts, hstep]
    rfl
  · rw [h.ctx, hstep]
    rfl
  · rw [hstep]
    rcases hpublished with ⟨rfl, rfl⟩ | ⟨rfl, rfl⟩
    · exact h.out
    · exact rfl
  · rw [addStep_some h.opened]
    dsimp only
    rw [holds_self h.array]
    refine .single (.stepped h.opened ?_)
    rcases hpublished with ⟨rfl, -⟩ | ⟨rfl, -⟩
    · exact .inr rfl
    · exact .inl rfl

/-- The output is in the buffer that the context comes to own. -/
theorem agrees_of_buffer {answer : ClientAnswer} {x : Address} {data : Bytes} (hrc : answer.rc = guard step.run.rc)
    (hoparams : answer.oparams = some step.run.oparams)
    (hprompts : answer.memory.readPrompts answer.promptNeed = some step.run.prompts)
    (hcontext : answer.memory conn = some (.context (some x))) (hbuffer : answer.memory x = some (.buffer data))
    (hctx : step.run.ctx.output = data) (hpublished : answer.published = .at x) (hout : step.run.out = .publish data) :
    answer.Agrees conn step.run where
  rc := hrc
  oparams := hoparams
  prompts := hprompts
  ctx := by
    refine view_eq_some hcontext ?_
    rw [Option.bind_some, ClientHeap.buffer_eq_some.2 hbuffer, hctx]
    rfl
  out := by
    rw [hpublished]
    exact ⟨data, ClientHeap.buffer_eq_some.2 hbuffer, hout⟩

/-- Memory that agrees on an array shows the same prompts. -/
theorem readPrompts_congr {m m' : ClientHeap} {slot : Option (Option Address)}
    (h : ∀ a, slot = some (some a) → m' a = m a) : m'.readPrompts slot = m.readPrompts slot := by
  rcases slot with _ | _ | a
  · rfl
  · rfl
  · rw [ClientHeap.readPrompts, ClientHeap.readPrompts, ClientHeap.prompts, ClientHeap.prompts, h a rfl]

/-- What is published is the output of the connection. -/
theorem Safe.of_published (hs : s.Safe) (hc : s.conns conn = some c) {x : Address} {data : Bytes}
    (h : c.published = some (x, data)) :
    s.memory conn = some (.context (some x)) ∧ s.memory x = some (.buffer data) ∧ Wire data := by
  obtain ⟨output, hcontext, -, hpublished⟩ := (hs.safeAt conn).conn c hc
  obtain ⟨rfl, hdata, hwire⟩ := hpublished x data h
  exact ⟨hcontext, hdata, hwire⟩

/-- A new buffer replaces the one of a context, and leaves the arrays as they are. -/
theorem Safe.exists_replaced (hs : s.Safe) (hc : s.conns conn = some c) {x : Address} (hfresh : s.memory x = none)
    {data : Bytes} (hwire : Wire data) (oparams : OutParams) :
    ∃ memory, s.memory.assign ClientBlock.owns conn (.context (some x)) x (.buffer data) = some memory ∧
      memory conn = some (.context (some x)) ∧ memory x = some (.buffer data) ∧
      (∀ a, s.arrays a = true → memory a = s.memory a) ∧
      s.Moves { s with memory, conns := Function.update s.conns conn (some { oparams, published := some (x, data) }) } := by
  obtain ⟨output, hcontext, -⟩ := (hs.safeAt conn).conn c hc
  obtain ⟨memory, hmemory, happly, -⟩ := hs.tidy.assign (mem_roots_of_conn hc) hcontext hfresh
    (b := .context (some x)) (d := .buffer data) rfl rfl
  have hmove : s.Moves { s with
      memory
      conns := Function.update s.conns conn (some { oparams, published := some (x, data) }) } :=
    .replaced hc hfresh hwire hmemory
  obtain ⟨hcontext', hdata, -⟩ := (hs.of_moves hmove).of_published (Function.update_self ..) rfl
  refine ⟨memory, hmemory, hcontext', hdata, fun a ha => ?_, hmove⟩
  have hne : a ≠ conn := by
    rintro rfl
    cases (hs.only_conn hc).2.symm.trans ha
  have hnew : a ≠ x := by
    rintro rfl
    exact hs.tidy.notMem_of_fresh hfresh (mem_roots_of_array ha)
  rw [happly, if_neg (hs.not_owned (mem_roots_of_array ha) hcontext), if_neg hne, if_neg hnew]

/-- A step that answers an error document. -/
theorem Finds.answers_of_completed (hs : s.Safe) (h : s.Finds conn c call old step)
    (hfresh : s.memory output = none) (hshort : step.serverIn.length % 2 ^ 32 ≤ maxServerinLen)
    (hfinal : step.isFinal = true)
    (hstep : step.run = { step.stopped saslOk (.publish [0x01]) with
      ctx := { output := [0x01] }, oparams := step.oparams.finish }) :
    s.Answers conn call old output array step := by
  have hrc : step.run.rc = some saslOk := by rw [hstep]; rfl
  have hprompts : step.run.prompts = step.prompts := by rw [hstep]; rfl
  have hctx : step.run.ctx.output = [0x01] := by rw [hstep]
  have hout : step.run.out = .publish [0x01] := by rw [hstep]; rfl
  cases old with
  | some a =>
    obtain ⟨output', hcontext, hbuffer, -⟩ := (hs.safeAt conn).conn c h.opened
    obtain rfl := ClientBlock.context.inj (Option.some.inj (h.context.symm.trans hcontext))
    obtain ⟨data, hdata⟩ := hbuffer a rfl
    have hne : conn ≠ a := fun heq => hs.not_owned (mem_roots_of_conn h.opened) h.context (heq ▸ rfl)
    have harray : ∀ x, s.arrays x = true → x ≠ a := by
      rintro x hx rfl
      exact hs.not_owned (mem_roots_of_array hx) h.context rfl
    refine ⟨{ rc := guard step.run.rc
              memory := s.memory.alloc a (.buffer [0x01])
              promptNeed := call.promptNeed
              oparams := some step.run.oparams
              published := .at a }, ?_, agrees_of_buffer rfl rfl ?_ ?_ ?_ hctx rfl hout, ?_⟩
    · simp only [ClientStep.runIn, if_neg (Nat.not_lt.2 hshort), if_pos hfinal, hctx, Memory.write_of_some hdata,
        Option.map_some]
    · rw [hprompts, ← h.prompts]
      exact readPrompts_congr fun x hx => (Memory.alloc_apply x).trans (if_neg (harray x (h.array x hx)))
    · exact (Memory.alloc_apply conn).trans ((if_neg hne).trans h.context)
    · exact (Memory.alloc_apply a).trans (if_pos rfl)
    · rw [addStep_some h.opened]
      dsimp only
      rw [holds_self h.array, readIn_at ((Memory.alloc_apply a).trans (if_pos rfl))]
      exact .single (.rewritten h.opened h.context hdata .abort)
  | none =>
    obtain ⟨memory, hmemory, hcontext, hdata, harrays, hmove⟩ := hs.exists_replaced h.opened hfresh .abort
      step.run.oparams
    refine ⟨{ rc := guard step.run.rc
              memory
              promptNeed := call.promptNeed
              oparams := some step.run.oparams
              published := .at output }, ?_, agrees_of_buffer rfl rfl ?_ hcontext hdata hctx rfl hout, ?_⟩
    · simp only [ClientStep.runIn, if_neg (Nat.not_lt.2 hshort), if_pos hfinal, hctx, hmemory, Option.map_some]
    · rw [hprompts, ← h.prompts]
      exact readPrompts_congr fun x hx => harrays x (h.array x hx)
    · rw [addStep_some h.opened]
      dsimp only
      rw [holds_self h.array, readIn_at hdata]
      exact .single hmove

/-- The step releases the array in its slot, and nothing else. -/
theorem Finds.exists_released (hs : s.Safe) (h : s.Finds conn c call old step) :
    ∃ memory, s.memory.release call.free call.promptNeed = some memory ∧
      ReflTransGen Moves s { s with memory, arrays := holds s.arrays call.promptNeed false } ∧
      memory conn = some (.context old) ∧ (old.bind memory.buffer).getD [] = step.ctx.output ∧
      ∀ x, s.memory x = none ∨ call.releases = some x → memory x = none := by
  obtain ⟨memory, hmemory, hmoves, happly⟩ := hs.exists_release h.array
  have hkeep : ∀ x, s.arrays x = false → memory x = s.memory x := by
    intro x hx
    rw [happly, if_neg]
    intro hslot
    cases hx.symm.trans (h.array x hslot)
  rw [h.free]
  refine ⟨memory, hmemory, hmoves, (hkeep _ (hs.only_conn h.opened).2).trans h.context, ?_, fun x hx => ?_⟩
  · rw [← h.ctx]
    cases old with
    | none => rfl
    | some a =>
      have ha : s.arrays a = false := Bool.eq_false_iff.2 fun ha =>
        hs.not_owned (mem_roots_of_array ha) h.context rfl
      simp only [Option.bind_some, ClientHeap.buffer, hkeep a ha]
  · rw [happly]
    rcases hx with hx | hx
    · rw [hx, ite_self]
    · rw [if_pos (releases_eq_some hx)]

/-- What is read of a slot that was released. -/
theorem readPrompts_released {m m' : ClientHeap} {slot : Option (Option Address)} {prompts : Prompts}
    (h : m.readPrompts slot = some prompts) : m'.readPrompts (slot.map fun _ => none) = some prompts.release := by
  rcases slot with _ | _ | a
  · cases h
    rfl
  · cases h
    rfl
  · obtain ⟨entries, -, rfl⟩ := Option.map_eq_some_iff.1 h
    rfl

/-- An initial step that is refused. -/
theorem Finds.answers_of_refused (hs : s.Safe) (h : s.Finds conn c call old step)
    (hshort : step.serverIn.length % 2 ^ 32 ≤ maxServerinLen) (hinit : step.isFinal = false)
    (hssf : step.ssfTooWeak = false) {rc : Int} {calls : List (CanonCall × Int)}
    (hstep : step.run = step.failed rc step.prompts.release calls) : s.Answers conn call old output array step := by
  obtain ⟨memory, hmemory, hmoves, hcontext, hctx, -⟩ := h.exists_released hs
  have hprompts : step.run.prompts = step.prompts.release := by rw [hstep]; rfl
  have hout : step.run.out = none := by rw [hstep]; rfl
  refine ⟨{ rc := guard step.run.rc
            memory
            promptNeed := call.promptNeed.map fun _ => none
            oparams := some step.run.oparams
            published := .cleared }, ?_, ⟨rfl, rfl, ?_, view_eq_some hcontext ?_, hout⟩, ?_⟩
  · simp only [ClientStep.runIn, if_neg (Nat.not_lt.2 hshort), hinit, hssf, Bool.false_eq_true, if_false, hmemory,
      Option.bind_eq_bind, Option.bind_some, hprompts, hout]
    cases step.prompts <;> rfl
  · exact (readPrompts_released h.prompts).trans (congrArg some hprompts.symm)
  · rw [hctx, hstep]
    rfl
  · rw [addStep_some h.opened]
    dsimp only
    rw [holds_released]
    exact hmoves.tail (.stepped h.opened (.inl rfl))

/-- An initial step that asks for a prompt. -/
theorem Finds.answers_of_asked (hs : s.Safe) (h : s.Finds conn c call old step)
    (harray : s.memory array = none ∨ call.releases = some array)
    (hshort : step.serverIn.length % 2 ^ 32 ≤ maxServerinLen) (hinit : step.isFinal = false)
    (hssf : step.ssfTooWeak = false) {rc : Int} {calls : List (CanonCall × Int)} {entries : List Interact}
    (hstep : step.run = step.failed rc (some (some entries)) calls) (hended : Ended entries) :
    s.Answers conn call old output array step := by
  obtain ⟨memory, hmemory, hmoves, hcontext, hctx, hfree⟩ := h.exists_released hs
  have hfresh := hfree array harray
  have hprompts : step.run.prompts = some (some entries) := by rw [hstep]; rfl
  have hout : step.run.out = none := by rw [hstep]; rfl
  have hkeep : ∀ x d, memory x = some d → memory.alloc array (.prompts entries) x = some d := fun x d hx =>
    alloc_of_some hfresh hx
  refine ⟨{ rc := guard step.run.rc
            memory := memory.alloc array (.prompts entries)
            promptNeed := some (some array)
            oparams := some step.run.oparams
            published := .cleared }, ?_,
    ⟨rfl, rfl, ?_, view_eq_some (hkeep _ _ hcontext) ?_, hout⟩, ?_⟩
  · simp only [ClientStep.runIn, if_neg (Nat.not_lt.2 hshort), hinit, hssf, Bool.false_eq_true, if_false, hmemory,
      Option.bind_eq_bind, Option.bind_some, hprompts, hout]
  · rw [hprompts, ClientHeap.readPrompts,
      ClientHeap.prompts_eq_some.2 ⟨(Memory.alloc_apply array).trans (if_pos rfl), hended⟩]
    rfl
  · rw [hstep]
    refine Eq.trans ?_ hctx
    cases old with
    | none => rfl
    | some a =>
      obtain ⟨output', hcontext', hbuffer, -⟩ := ((hs.of_moves_star hmoves).safeAt conn).conn c h.opened
      obtain rfl := ClientBlock.context.inj (Option.some.inj (hcontext.symm.trans hcontext'))
      obtain ⟨data, hdata⟩ := hbuffer a rfl
      simp only [Option.bind_some, ClientHeap.buffer, hkeep a _ hdata, show memory a = some (.buffer data) from hdata]
  · rw [addStep_some h.opened]
    exact (hmoves.tail (.handed hfresh hended)).tail (.stepped h.opened (.inl rfl))

/-- An initial step that sends a response. -/
theorem Finds.answers_of_sent (hs : s.Safe) (h : s.Finds conn c call old step)
    (houtput : s.memory output = none ∨ call.releases = some output) {authzid : Option String} {token : String}
    (hsends : step.Sends authzid token) {calls : List (CanonCall × Int)}
    (hstep : step.run = { step.failed saslContinue step.prompts.release calls with
      ctx := { output := buildClientResponse authzid token }, out := .publish (buildClientResponse authzid token) }) :
    s.Answers conn call old output array step := by
  obtain ⟨memory, hmemory, hmoves, -, -, hfree⟩ := h.exists_released hs
  have hs' := hs.of_moves_star hmoves
  obtain ⟨memory', hmemory', hcontext, hdata, -, hmove⟩ := hs'.exists_replaced h.opened (hfree output houtput)
    (.response authzid token) step.run.oparams
  have hprompts : step.run.prompts = step.prompts.release := by rw [hstep]; rfl
  have hctx : step.run.ctx.output = buildClientResponse authzid token := by rw [hstep]
  have hout : step.run.out = .publish (buildClientResponse authzid token) := by rw [hstep]
  refine ⟨{ rc := guard step.run.rc
            memory := memory'
            promptNeed := call.promptNeed.map fun _ => none
            oparams := some step.run.oparams
            published := .at output }, ?_, agrees_of_buffer rfl rfl ?_ hcontext hdata hctx rfl hout, ?_⟩
  · have hassign : memory.assign ClientBlock.owns conn (.context (some output)) output
        (.buffer (buildClientResponse authzid token)) = some memory' := hmemory'
    simp only [ClientStep.runIn, if_neg (Nat.not_lt.2 hsends.short), hsends.initial, hsends.ssf, Bool.false_eq_true,
      if_false, hmemory, Option.bind_eq_bind, Option.bind_some, hprompts, hout, hctx, hassign]
    cases step.prompts <;> rfl
  · exact (readPrompts_released h.prompts).trans (congrArg some hprompts.symm)
  · rw [addStep_some h.opened]
    dsimp only
    rw [holds_released, readIn_at hdata]
    exact hmoves.tail hmove

/-- Every step that the host may make answers, and does in memory what it does. -/
theorem Finds.answers (hs : s.Safe) (h : s.Finds conn c call old step)
    (houtput : s.memory output = none ∨ call.releases = some output)
    (harray : s.memory array = none ∨ call.releases = some array)
    (hreleases : step.isFinal = true → call.releases = none) : s.Answers conn call old output array step := by
  have hstepped := stepped_run step
  generalize hr : step.run = r at hstepped
  cases hstepped with
  | tooBig hbig =>
    refine h.answers_of_stopped .left hr ?_ (.inl ⟨rfl, rfl⟩)
    simp only [ClientStep.runIn, if_pos hbig]
  | completed hshort hfinal =>
    refine h.answers_of_completed hs (houtput.resolve_right ?_) hshort hfinal hr
    rw [hreleases hfinal]
    exact fun h => by cases h
  | weak hshort hinit hssf =>
    refine h.answers_of_stopped .cleared hr ?_ (.inr ⟨rfl, rfl⟩)
    simp only [ClientStep.runIn, if_neg (Nat.not_lt.2 hshort), hinit, hssf, Bool.false_eq_true, if_false, if_true]
  | asked wantUser wantPass hshort hinit hssf =>
    exact h.answers_of_asked hs harray hshort hinit hssf hr (ended_requested _ _)
  | refused rc calls hshort hinit hssf hrc => exact h.answers_of_refused hs hshort hinit hssf hr
  | sent authzid token calls hsends => exact h.answers_of_sent hs houtput hsends hr

theorem pointers_eq_some {utils : Utils} {params : ClientParams} {oparams : OutParams} :
    call.pointers = some (utils, params, oparams) ↔ call.params = some params ∧ params.utils = some utils ∧
      call.oparams = some oparams ∧ (call.clientOut && call.clientOutLen) = true := by
  simp only [ClientCall.pointers, Option.bind_eq_bind, Option.bind_eq_some_iff]
  constructor
  · rintro ⟨params', hparams, utils', hutils, oparams', hoparams, h⟩
    split at h
    · cases h
      exact ⟨hparams, hutils, hoparams, by assumption⟩
    · cases h
  · rintro ⟨hparams, hutils, hoparams, hout⟩
    exact ⟨params, hparams, utils, hutils, oparams, hoparams, by rw [if_pos hout]⟩

/-- The step of a call that is not refused for a NULL pointer. -/
theorem Safe.finds (hs : s.Safe) (hallows : s.Allows (.mechStep (some conn) call output array)) {utils : Utils}
    {params : ClientParams} {oparams : OutParams} (hpointers : call.pointers = some (utils, params, oparams)) :
    ∃ c old prompts, s.memory.readPrompts call.promptNeed = some prompts ∧
      s.Finds conn c call old (.ofCall utils { output := (old.bind s.memory.buffer).getD [] } params call.serverIn
        call.serverInLen prompts none oparams) := by
  obtain ⟨-, -, hfree, harray, hconn⟩ := hallows
  obtain ⟨c, hc, hoparams⟩ := hconn conn rfl
  obtain ⟨old, hcontext, -⟩ := (hs.safeAt conn).conn c hc
  obtain ⟨prompts, hprompts⟩ := hs.exists_readPrompts harray
  refine ⟨c, old, prompts, hprompts, hc, harray, hfree, hcontext, hprompts, rfl, rfl, hoparams _ ?_⟩
  exact (pointers_eq_some.1 hpointers).2.2.1

/-- A step that has server data does not release anything. -/
theorem releases_of_final {utils : Utils} {params : ClientParams} {oparams : OutParams}
    (hpointers : call.pointers = some (utils, params, oparams)) (hfinal : call.serverInLen ≠ 0) :
    call.releases = none := by
  simp [ClientCall.releases, hpointers, hfinal]

/-- The step of a connection does what it does to the values in memory. -/
theorem Safe.answers (hs : s.Safe) (hallows : s.Allows (.mechStep (some conn) call output array)) {utils : Utils}
    {params : ClientParams} {oparams : OutParams} (hpointers : call.pointers = some (utils, params, oparams)) :
    ∃ ctx prompts answer, s.memory.view conn = some ctx ∧ s.memory.readPrompts call.promptNeed = some prompts ∧
      clientMechStepIn (some conn) call output array s.memory = some answer ∧
      answer.Agrees conn
        (ClientStep.ofCall utils ctx params call.serverIn call.serverInLen prompts none oparams).run ∧
      ReflTransGen Moves s (s.addStep (some conn) call answer) := by
  obtain ⟨c, old, prompts, hprompts, hfinds⟩ := hs.finds hallows hpointers
  obtain ⟨houtput, harray, -⟩ := hallows
  obtain ⟨answer, hanswer, hagrees, hmoves⟩ := hfinds.answers hs houtput harray fun hfinal =>
    releases_of_final hpointers (of_decide_eq_true hfinal)
  refine ⟨_, prompts, answer, view_eq_some hfinds.context rfl, hprompts, ?_, hagrees, hmoves⟩
  simp only [clientMechStepIn, hpointers, ClientHeap.context_eq_some.2 hfinds.context, Option.bind_eq_bind,
    Option.bind_some, hprompts]
  exact hanswer

/-- A step that is refused for a NULL pointer leaves everything as it was. -/
theorem addStep_refused {context : Option Address} (hallows : s.Allows (.mechStep context call output array)) :
    s.addStep context call { rc := saslBadparam, memory := s.memory, promptNeed := call.promptNeed
                             oparams := call.oparams, published := .left } = s := by
  obtain ⟨-, -, -, harray, hconn⟩ := hallows
  cases context with
  | none =>
    simp only [addStep, holds_self harray]
    rfl
  | some conn =>
    obtain ⟨c, hc, hoparams⟩ := hconn conn rfl
    have hsame : call.oparams.getD c.oparams = c.oparams := by
      cases hop : call.oparams with
      | none => rfl
      | some oparams => exact hoparams oparams hop
    rw [addStep_some hc]
    dsimp only [Published.readIn]
    rw [holds_self harray, hsame, ← hc, Function.update_eq_self]

/-- No call that the host may make goes wrong. -/
theorem Safe.moves (hs : s.Safe) {l : ClientHostCall} (h : s.Allows l) :
    ∃ s', s.call l = some s' ∧ ReflTransGen Moves s s' := by
  cases l with
  | init utils maxvers outvers pluglist plugcount plugin =>
    rw [ClientHost.call, saslClientPlugInit]
    split_ifs
    · exact ⟨_, rfl, .refl⟩
    · exact ⟨_, rfl, .refl⟩
    · exact ⟨_, rfl, .refl⟩
    · exact ⟨_, rfl, .single (.listed h)⟩
  | mechNew connContext oparams fresh =>
    rw [ClientHost.call, clientMechNew]
    split_ifs
    · exact ⟨_, rfl, .refl⟩
    · exact ⟨_, rfl, .single (.opened h)⟩
  | mechStep context call output array =>
    have hrefused : (context = none ∨ call.pointers = none) →
        ∃ s', s.call (.mechStep context call output array) = some s' ∧ ReflTransGen Moves s s' := by
      intro hnull
      refine ⟨s, ?_, .refl⟩
      have hstep : clientMechStepIn context call output array s.memory = some
          { rc := saslBadparam, memory := s.memory, promptNeed := call.promptNeed, oparams := call.oparams
            published := .left } := by
        rcases hnull with rfl | hpointers
        · rfl
        · cases context <;> simp [clientMechStepIn, hpointers]
      rw [ClientHost.call, hstep, Option.map_some, addStep_refused h]
    cases context with
    | none => exact hrefused (.inl rfl)
    | some conn =>
      cases hpointers : call.pointers with
      | none => exact hrefused (.inr hpointers)
      | some pointers =>
        obtain ⟨utils, params, oparams⟩ := pointers
        obtain ⟨ctx, prompts, answer, -, -, hanswer, -, hmoves⟩ := hs.answers h hpointers
        exact ⟨_, by rw [ClientHost.call, hanswer, Option.map_some], hmoves⟩
  | mechDispose context =>
    cases context with
    | none => exact ⟨_, rfl, .refl⟩
    | some conn =>
      obtain ⟨c, hc⟩ := Option.isSome_iff_exists.1 (h conn rfl)
      obtain ⟨old, hcontext, -⟩ := (hs.safeAt conn).conn c hc
      obtain ⟨memory, hmemory, -⟩ := hs.tidy.drop (mem_roots_of_conn hc) hcontext
      refine ⟨_, ?_, .single (.disposed hc hmemory)⟩
      simp [ClientHost.call, clientMechDispose, ClientHeap.context_eq_some.2 hcontext, hmemory]
  | fill a entries =>
    obtain ⟨harray, hids⟩ := h
    obtain ⟨old, hold, -⟩ := (hs.safeAt a).array harray
    exact ⟨_, by rw [ClientHost.call, Memory.write_of_some hold, Option.map_some],
      .single (.filled harray hold (hids old hold))⟩
  | free a =>
    obtain ⟨old, hold, -⟩ := (hs.safeAt a).array h
    obtain ⟨memory, hmemory, -⟩ := hs.tidy.drop (mem_roots_of_array h) hold
    exact ⟨_, by rw [ClientHost.call, hmemory, Option.map_some], .single (.released h hmemory)⟩

theorem safe_initial : initial.Safe where
  tidy := by
    have hroots : initial.roots = ∅ := by
      ext y
      simp [roots, initial]
    rw [hroots]
    exact Memory.tidy_empty
  safeAt a := ⟨fun h => (by cases h), fun h => (by cases h), fun c h => (by cases h)⟩

theorem Safe.of_step (hs : s.Safe) {l : ClientHostCall} (h : s.Step l s') : s'.Safe := by
  obtain ⟨s'', hcall, hmoves⟩ := hs.moves h.1
  obtain rfl := Option.some.inj (hcall.symm.trans h.2)
  exact hs.of_moves_star hmoves

variable {tr tr' : List (Taken ClientHost ClientHostCall)}

theorem Safe.of_run (hs : s.Safe) (h : Run Step s tr s') : s'.Safe := by
  have hstep : ∀ (s : ClientHost) l s', s.Step l s' → True → s.Safe → s'.Safe := fun s l s' h _ hs => hs.of_step h
  exact (h.invariant hstep (fun _ _ => trivial) hs).1

end ClientHost

open ClientHost

variable {s s' : ClientHost} {tr tr' : List (Taken ClientHost ClientHostCall)} {conn x : Address}
  {c : ClientConnection} {call : ClientCall} {output array : Address}

/-- In every run, no call that the host may make goes wrong, and what is live is what the host holds,
    or the output of a connection. -/
theorem client_plugin_safe (h : Run ClientHost.Step .initial tr s) :
    (∀ l, s.Allows l → ∃ s', s.call l = some s') ∧
      ∀ x, (∃ b, s.memory x = some b) ↔ s.plugins x = true ∨ s.arrays x = true ∨ (s.conns x).isSome ∨
        ∃ conn c, s.conns conn = some c ∧ s.memory conn = some (.context (some x)) := by
  have hs := safe_initial.of_run h
  refine ⟨fun l hl => ?_, fun x => hs.tidy.live_iff.trans ?_⟩
  · obtain ⟨s', hs', -⟩ := hs.moves hl
    exact ⟨s', hs'⟩
  · have hroot : x ∈ s.roots ↔ s.plugins x = true ∨ s.arrays x = true ∨ (s.conns x).isSome := Iff.rfl
    rw [hroot, or_assoc, or_assoc]
    refine or_congr_right (or_congr_right (or_congr_right ⟨?_, ?_⟩))
    · rintro ⟨conn, hconn, b, hb, hown⟩
      rcases hconn with hplugin | harray | hconn
      · rw [Option.some.inj (hb.symm.trans ((hs.safeAt conn).plugin hplugin))] at hown
        cases hown
      · obtain ⟨entries, hb', -⟩ := (hs.safeAt conn).array harray
        rw [Option.some.inj (hb.symm.trans hb')] at hown
        cases hown
      · obtain ⟨c, hc⟩ := Option.isSome_iff_exists.1 hconn
        obtain ⟨output, hb', -⟩ := (hs.safeAt conn).conn c hc
        rw [Option.some.inj (hb.symm.trans hb')] at hown
        exact ⟨conn, c, hc, by rw [hb', show output = some x from hown]⟩
    · rintro ⟨conn, c, hc, hb⟩
      exact ⟨conn, mem_roots_of_conn hc, _, hb, rfl⟩

/-- The slots for the output, which are empty. -/
def ClientCall.outSlot (call : ClientCall) : Option OutBuf :=
  if call.clientOut && call.clientOutLen then some none else none

theorem clientMechStep_of_null (h : call.pointers = none) (ctx : ClientContext) (prompts : Prompts) :
    clientMechStep (some ctx) call.params call.serverIn call.serverInLen prompts call.outSlot call.oparams =
      (saslBadparam, none) := by
  unfold clientMechStep
  cases hparams : call.params with
  | none => rfl
  | some params =>
    cases hutils : params.utils with
    | none => simp only [hutils]
    | some utils =>
      cases hoparams : call.oparams with
      | none => cases call.outSlot <;> simp only [hutils]
      | some oparams =>
        have hout : ¬(call.clientOut && call.clientOutLen) = true := fun hout => by
          cases h.symm.trans (pointers_eq_some.2 ⟨hparams, hutils, hoparams, hout⟩)
        simp only [hutils, ClientCall.outSlot, if_neg hout]

/-- In every run, a step in memory answers as the step on the values does that are in memory, and
    leaves these there. -/
theorem client_refines (h : Run ClientHost.Step .initial tr s)
    (hallows : s.Allows (.mechStep (some conn) call output array)) :
    ∃ ctx prompts answer, s.memory.view conn = some ctx ∧ s.memory.readPrompts call.promptNeed = some prompts ∧
      clientMechStepIn (some conn) call output array s.memory = some answer ∧
      answer.rc = (clientMechStep (some ctx) call.params call.serverIn call.serverInLen prompts call.outSlot
        call.oparams).1 ∧
      ∀ result, (clientMechStep (some ctx) call.params call.serverIn call.serverInLen prompts call.outSlot
        call.oparams).2 = some result → answer.Agrees conn result := by
  have hs := safe_initial.of_run h
  cases hpointers : call.pointers with
  | some pointers =>
    obtain ⟨utils, params, oparams⟩ := pointers
    obtain ⟨ctx, prompts, answer, hview, hprompts, hanswer, hagrees, -⟩ := hs.answers hallows hpointers
    obtain ⟨hparams, hutils, hoparams, hout⟩ := pointers_eq_some.1 hpointers
    have hvalues : clientMechStep (some ctx) call.params call.serverIn call.serverInLen prompts call.outSlot
        call.oparams = (guard (ClientStep.ofCall utils ctx params call.serverIn call.serverInLen prompts none
          oparams).run.rc, some (ClientStep.ofCall utils ctx params call.serverIn call.serverInLen prompts none
          oparams).run) := by
      simp only [clientMechStep, hparams, hutils, hoparams, ClientCall.outSlot, if_pos hout]
    refine ⟨ctx, prompts, answer, hview, hprompts, hanswer, ?_, fun result hresult => ?_⟩
    · rw [hvalues]
      exact hagrees.rc
    · rw [hvalues] at hresult
      exact Option.some.inj hresult ▸ hagrees
  | none =>
    obtain ⟨-, -, -, harray, hconn⟩ := hallows
    obtain ⟨c, hc, -⟩ := hconn conn rfl
    obtain ⟨old, hcontext, -⟩ := (hs.safeAt conn).conn c hc
    obtain ⟨prompts, hprompts⟩ := hs.exists_readPrompts harray
    refine ⟨_, prompts, { rc := saslBadparam
                          memory := s.memory
                          promptNeed := call.promptNeed
                          oparams := call.oparams
                          published := .left }, view_eq_some hcontext rfl, hprompts, ?_, ?_, ?_⟩
    · simp only [clientMechStepIn, hpointers]
    · rw [clientMechStep_of_null hpointers]
    · rw [clientMechStep_of_null hpointers]
      exact fun result hresult => by cases hresult

/-- The call is one for the connection. -/
def ClientHostCall.concerns (a : Address) : ClientHostCall → Prop
  | .mechStep context _ _ _ | .mechDispose context => context = some a
  | .init _ _ _ _ _ _ | .mechNew _ _ _ | .fill _ _ | .free _ => False

/-- A call for another connection leaves the connection as it is. -/
theorem conns_of_step (hs : s.Safe) {l : ClientHostCall} (h : s.Step l s') (hother : ¬l.concerns conn)
    (hc : s.conns conn = some c) : s'.conns conn = some c := by
  obtain ⟨hallows, hcall⟩ := h
  have hne : ∀ {context : Option Address} {f : Address → Option ClientConnection}, context ≠ some conn →
      context.elim s.conns (fun a => Function.update s.conns a (f a)) conn = some c := by
    intro context f hcontext
    cases context with
    | none => exact hc
    | some a =>
      refine (Function.update_of_ne ?_ _ _).trans hc
      rintro rfl
      exact hcontext rfl
  cases l with
  | init utils maxvers outvers pluglist plugcount plugin =>
    rw [ClientHost.call] at hcall
    split at hcall <;> cases hcall <;> exact hc
  | mechNew connContext oparams fresh =>
    rw [ClientHost.call, clientMechNew] at hcall
    split_ifs at hcall
    · cases hcall
      exact hc
    · cases hcall
      refine (Function.update_of_ne ?_ _ _).trans hc
      rintro rfl
      exact hs.tidy.notMem_of_fresh hallows (mem_roots_of_conn hc)
  | mechStep context call output array =>
    obtain ⟨answer, -, rfl⟩ := Option.map_eq_some_iff.1 hcall
    exact hne hother
  | mechDispose context =>
    obtain ⟨memory, -, rfl⟩ := Option.map_eq_some_iff.1 hcall
    exact hne hother
  | fill a entries | free a =>
    obtain ⟨memory, -, rfl⟩ := Option.map_eq_some_iff.1 hcall
    exact hc

/-- What a connection has published, an answer to an error document or a response, stays where and as
    it is while the calls are not for this connection, and no other connection publishes it. -/
theorem client_output_stays {data : Bytes} (h : Run ClientHost.Step .initial tr s) (hc : s.conns conn = some c)
    (hpublished : c.published = some (x, data)) (hafter : Run ClientHost.Step s tr' s')
    (hother : ∀ t ∈ tr', ¬t.label.concerns conn) :
    s'.memory x = some (.buffer data) ∧ Wire data ∧
      ∀ a c' data', s'.conns a = some c' → c'.published = some (x, data') → a = conn := by
  have hstep : ∀ (s : ClientHost) l s', s.Step l s' → ¬l.concerns conn → s.Safe ∧ s.conns conn = some c →
      s'.Safe ∧ s'.conns conn = some c :=
    fun s l s' h hother hsc => ⟨hsc.1.of_step h, conns_of_step hsc.1 h hother hsc.2⟩
  obtain ⟨hs, hc'⟩ := (hafter.invariant hstep hother ⟨safe_initial.of_run h, hc⟩).1
  obtain ⟨hcontext, hdata, hwire⟩ := hs.of_published hc' hpublished
  refine ⟨hdata, hwire, fun a c'' data' ha hx => ?_⟩
  obtain ⟨hcontext', -, -⟩ := hs.of_published ha hx
  exact hs.tidy.unique _ _ _ _ x hcontext' hcontext rfl rfl

namespace Fixture

/-- A first call of a client whose token is prompted for. -/
def clientCall (promptNeed : Option (Option Address)) : ClientCall where
  params := some ⟨some (application name (saslInteract, none)), some fun _ => saslOk, 0, 0⟩
  serverIn := none
  serverInLen := 0
  promptNeed := promptNeed
  clientOut := true
  clientOutLen := true
  oparams := some oparams
  free := true

/-- Two connections; the prompts of the first are answered, and used for the second one. The buffer of
    this comes to where the array was. -/
def clientCalls : List ClientHostCall :=
  [.init (some utils) saslClientPlugVersion true true true 1, .mechNew true oparams 2, .mechNew true oparams 3,
    .mechStep (some 2) (clientCall (some none)) 5 4, .fill 4 answers, .mechStep (some 3) (clientCall (some (some 4))) 4 5]

/-- Whether one of these calls may be made. -/
def allowedClient (s : ClientHost) : ClientHostCall → Bool
  | .init _ _ _ _ _ plugin => (s.memory plugin).isNone
  | .mechNew _ _ fresh => (s.memory fresh).isNone
  | .mechStep (some conn) call output array =>
    ((s.memory output).isNone || call.releases == some output) &&
      ((s.memory array).isNone || call.releases == some array) && call.free && call.promptNeed.join.all (s.arrays ·) &&
      (s.conns conn).any fun c => call.oparams == some c.oparams
  | .fill array entries => s.arrays array && (s.memory.prompts array).any fun old =>
    entries.map Interact.id == old.map Interact.id
  | _ => false

theorem allows_of_allowedClient {s : ClientHost} {l : ClientHostCall} (h : allowedClient s l = true) : s.Allows l := by
  cases l with
  | init | mechNew => exact Option.isNone_iff_eq_none.1 h
  | mechStep context call output array =>
    cases context with
    | none => cases h
    | some conn =>
      simp only [allowedClient, Bool.and_eq_true, Bool.or_eq_true, Option.isNone_iff_eq_none, beq_iff_eq,
        Option.any_eq_true, and_assoc] at h
      obtain ⟨houtput, harray, hfree, hslot, c, hc, hoparams⟩ := h
      refine ⟨houtput, harray, hfree, fun a ha => ?_, ?_⟩
      · rw [ha] at hslot
        exact hslot
      · rintro _ ⟨⟩
        exact ⟨c, hc, fun oparams hop => Option.some.inj (hop.symm.trans hoparams)⟩
  | fill array entries =>
    simp only [allowedClient, Bool.and_eq_true, Option.any_eq_true, beq_iff_eq] at h
    obtain ⟨harray, old, hold, hids⟩ := h
    refine ⟨harray, fun old' hold' => ?_⟩
    obtain ⟨hold, -⟩ := ClientHeap.prompts_eq_some.1 hold
    obtain rfl := ClientBlock.prompts.inj (Option.some.inj (hold.symm.trans hold'))
    exact hids
  | mechDispose | free => cases h

/-- The server has rejected the token. -/
def abortCall : ClientCall :=
  { clientCall (some none) with serverIn := some (utf8 invalidTokenJson), serverInLen := 26 }

def nextClientHost (s : ClientHost) (l : ClientHostCall) : Option ClientHost :=
  if allowedClient s l then s.call l else none

def clientHostRun : Option (List (Taken ClientHost ClientHostCall) × ClientHost) :=
  exec nextClientHost ClientHost.initial clientCalls

/-- What the second connection has sent. -/
def sent : Bytes := buildClientResponse (some "admin") "t.o.k"

theorem step_of_nextClientHost {s s' : ClientHost} {l : ClientHostCall} (h : nextClientHost s l = some s') :
    s.Step l s' := by
  rw [nextClientHost] at h
  split at h
  · rename_i hallowed
    exact ⟨allows_of_allowedClient hallowed, h⟩
  · cases h

/-- The calls make a run. -/
theorem exists_clientHostRun : ∃ tr s, clientHostRun = some (tr, s) ∧ Run ClientHost.Step .initial tr s ∧
    s.conns 3 = some ⟨oparams, some (4, sent)⟩ ∧ s.memory 6 = none := by
  obtain ⟨⟨tr, s⟩, hexec⟩ := Option.isSome_iff_exists.1 (by decide +kernel : clientHostRun.isSome = true)
  have hstate : (clientHostRun.map fun r => (r.2.conns 3, (r.2.memory 6).isNone)) =
    some (some ⟨oparams, some (4, sent)⟩, true) := by decide +kernel
  rw [hexec] at hstate
  obtain ⟨hthree, hsix⟩ := Prod.mk.inj (Option.some.inj hstate)
  exact ⟨tr, s, hexec, (Run.of_exec hexec).mono fun _ _ _ => step_of_nextClientHost, hthree,
    Option.isNone_iff_eq_none.1 hsix⟩

/-- After them the first connection is prompted for, and sends its token as well. -/
def laterCalls : List ClientHostCall :=
  [.mechStep (some 2) (clientCall (some none)) 6 7, .fill 7 answers, .mechStep (some 2) (clientCall (some (some 7))) 6 8]

theorem not_concerns_of_later {l : ClientHostCall} (h : l ∈ laterCalls) : ¬l.concerns 3 := by
  have hne : (some 2 : Option Address) ≠ some 3 := by decide
  rcases List.mem_cons.1 h with rfl | h
  · exact hne
  · rcases List.mem_cons.1 h with rfl | h
    · exact id
    · obtain rfl := List.mem_singleton.1 h
      exact hne

end Fixture

theorem client_plugin_safe_fixture : ∃ tr s, Run ClientHost.Step .initial tr s ∧
    ∃ s', s.call (.mechDispose (some 3)) = some s' := by
  obtain ⟨tr, s, -, hrun, hthree, -⟩ := Fixture.exists_clientHostRun
  refine ⟨tr, s, hrun, (client_plugin_safe hrun).1 _ ?_⟩
  rintro _ ⟨⟩
  rw [hthree]
  rfl

/-- The error exchange is completed, in the buffer of the response. -/
theorem client_refines_fixture : ∃ tr s answer, Run ClientHost.Step .initial tr s ∧
    clientMechStepIn (some 3) Fixture.abortCall 6 6 s.memory = some answer ∧ answer.rc = saslOk := by
  obtain ⟨tr, s, -, hrun, hthree, hsix⟩ := Fixture.exists_clientHostRun
  have hallows : s.Allows (.mechStep (some 3) Fixture.abortCall 6 6) := by
    refine ⟨.inl hsix, .inl hsix, rfl, fun a ha => (by cases ha), ?_⟩
    rintro _ ⟨⟩
    exact ⟨_, hthree, fun oparams hop => (Option.some.inj hop).symm⟩
  obtain ⟨ctx, prompts, answer, -, -, hanswer, hrc, -⟩ := client_refines hrun hallows
  exact ⟨tr, s, answer, hrun, hanswer, hrc.trans rfl⟩

/-- What the second connection has sent stays where it is while the first one sends its own. -/
theorem client_output_stays_fixture : ∃ tr s tr' s', Run ClientHost.Step .initial tr s ∧ Run ClientHost.Step s tr' s' ∧
    tr'.map Taken.label = Fixture.laterCalls ∧ s'.memory 4 = some (.buffer Fixture.sent) ∧
      s'.conns 2 = some ⟨Fixture.oparams, some (6, Fixture.sent)⟩ := by
  obtain ⟨tr, s, hexec, hrun, hthree, -⟩ := Fixture.exists_clientHostRun
  have hafter : (Fixture.clientHostRun.bind fun r => (exec Fixture.nextClientHost r.2 Fixture.laterCalls).map fun r' =>
    r'.2.conns 2) = some (some ⟨Fixture.oparams, some (6, Fixture.sent)⟩) := by decide +kernel
  rw [hexec] at hafter
  obtain ⟨⟨tr', s'⟩, hexec', htwo⟩ := Option.map_eq_some_iff.1 hafter
  have hrun' : Run ClientHost.Step s tr' s' := (Run.of_exec hexec').mono fun _ _ _ => Fixture.step_of_nextClientHost
  have hlabels := Run.labels_of_exec hexec'
  refine ⟨tr, s, tr', s', hrun, hrun', hlabels, (client_output_stays hrun hthree rfl hrun' fun t ht => ?_).1, htwo⟩
  exact Fixture.not_concerns_of_later (hlabels ▸ List.mem_map_of_mem ht)

end CrudeOAuth.Sasl
