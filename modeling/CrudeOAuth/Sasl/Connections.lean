import CrudeOAuth.Sasl.Plugin

/-!
# Connections of the server plugin

A host makes calls for any number of plugins and connections, one after the other, in any
order that its rules allow. In every such run

* no call looks into memory that is not live, or frees it twice, and what is live is
  held by the host, or is the document of a connection, so nothing is lost (`plugin_safe`);
* what the last step of a connection has published stays readable as it is, whatever is
  called for other connections (`published_stays`);
* every connection is a run of the server (`serverMachine`) of its own (`connection_run`),
  so what holds in all runs of the server holds of it.
-/

namespace CrudeOAuth.Sasl

open Rust Machine

variable {Jwk Key : Type} {jose : Jose Jwk Key} {s s' : Host Key} {l : HostCall} {a x : Address}
  {c c' : Connection}

/-! ## What a connection uses -/

/-- A step of the connection looks at the address. -/
def Host.Uses (s : Host Key) (a x : Address) : Prop :=
  x = a ∨ (∃ c, s.conns a = some c ∧ x = c.glob) ∨ ∃ glob, s.memory a = some (.context glob (some x))

theorem ne_of_memory {m : Heap Key} {x y : Address} {b b' : Block Key} (hx : m x = some b) (hy : m y = some b')
    (hne : b ≠ b') : x ≠ y := by
  rintro rfl
  exact hne (Option.some.inj (hx.symm.trans hy))

/-- What is used is live: the context, the configuration and the document. -/
theorem Host.Safe.uses (hs : s.Safe) (hc : s.conns a = some c) (hx : s.Uses a x) :
    (x = a ∧ ∃ serverOut, s.memory x = some (.context c.glob serverOut)) ∨
      (x = c.glob ∧ s.globs x = true ∧ ∃ config, s.memory x = some (.config config)) ∨
        s.memory a = some (.context c.glob (some x)) ∧ s.memory x = some (.text document) := by
  obtain ⟨serverOut, hcontext, hglob, htext, -⟩ := hs.conns a c hc
  rcases hx with rfl | ⟨c', hc', rfl⟩ | ⟨glob, hx⟩
  · exact .inl ⟨rfl, serverOut, hcontext⟩
  · obtain rfl := Option.some.inj (hc.symm.trans hc')
    exact .inr (.inl ⟨rfl, hglob, hs.globs _ hglob⟩)
  · obtain ⟨rfl, rfl⟩ := Block.context.inj (Option.some.inj (hcontext.symm.trans hx))
    exact .inr (.inr ⟨hx, htext x rfl⟩)

theorem Host.Safe.live_of_uses (hs : s.Safe) (hc : s.conns a = some c) (hx : s.Uses a x) :
    ∃ b, s.memory x = some b := by
  rcases hs.uses hc hx with ⟨-, _, h⟩ | ⟨-, -, _, h⟩ | ⟨-, h⟩ <;> exact ⟨_, h⟩

/-- A connection is as it was, if what it uses is. -/
theorem view_of_agree (hs : s.Safe) (hc : s.conns a = some c) (hc' : s'.conns a = some c)
    (hmemory : ∀ x, s.Uses a x → s'.memory x = s.memory x) :
    s'.view a = s.view a ∧ s'.configOf a = s.configOf a := by
  obtain ⟨serverOut, hcontext, -⟩ := hs.conns a c hc
  have hcontext' : s'.memory a = some (.context c.glob serverOut) := by rw [hmemory a (.inl rfl), hcontext]
  have htext : serverOut.bind s'.memory.text = serverOut.bind s.memory.text := by
    cases serverOut with
    | none => rfl
    | some x => simp only [Option.bind_some, Heap.text, hmemory x (.inr (.inr ⟨_, hcontext⟩))]
  constructor
  · simp [Host.view, hc, hc', context_eq_some.2 hcontext, context_eq_some.2 hcontext', htext]
  · simp [Host.configOf, hc, hc', Heap.config, hmemory c.glob (.inr (.inl ⟨c, hc, rfl⟩))]

theorem Host.ConnSafe.of_agree (h : s.ConnSafe a c)
    (hmemory : ∀ x, s.Uses a x → s'.memory x = s.memory x) (hglob : s'.globs c.glob = true) : s'.ConnSafe a c := by
  obtain ⟨serverOut, hcontext, -, htext, hpublished⟩ := h
  refine ⟨serverOut, by rw [hmemory a (.inl rfl), hcontext], hglob, ?_, hpublished⟩
  rintro x rfl
  rw [hmemory x (.inr (.inr ⟨_, hcontext⟩)), htext x rfl]

/-! ## What a call does to the memory -/

section

variable {conn fresh glob : Address} {memory : Heap Key}

/-- The document is put into the context, and the one before is freed. -/
theorem Host.Safe.assigned (hs : s.Safe) (hconn : s.conns conn = some c) (hfresh : s.memory fresh = none)
    (hmemory : s.memory.assign Block.owns conn (.context c.glob (some fresh)) fresh (.text document) = some memory) :
    ∃ serverOut, s.memory conn = some (.context c.glob serverOut) ∧
      (∀ y, serverOut = some y → s.memory y = some (.text document)) ∧
      (∀ y, memory y = if serverOut = some y then none else if y = conn then some (.context c.glob (some fresh))
        else if y = fresh then some (.text document) else s.memory y) ∧ Memory.Tidy Block.owns s.roots memory := by
  obtain ⟨serverOut, hcontext, -, htext, -⟩ := hs.conns conn c hconn
  obtain ⟨memory', hmemory', happly, htidy⟩ := hs.tidy.assign (.inr (.inr (by rw [hconn]; rfl))) hcontext hfresh
    (b := .context c.glob (some fresh)) (d := .text document) rfl rfl
  obtain rfl := Option.some.inj (hmemory'.symm.trans hmemory)
  exact ⟨serverOut, hcontext, htext, happly, htidy⟩

/-- The context is freed, and its document. -/
theorem Host.Safe.disposed (hs : s.Safe) (hconn : s.conns conn = some c)
    (hmemory : s.memory.drop Block.owns conn = some memory) :
    ∃ serverOut, s.memory conn = some (.context c.glob serverOut) ∧
      (∀ y, serverOut = some y → s.memory y = some (.text document)) ∧
      (∀ y, memory y = if y = conn ∨ serverOut = some y then none else s.memory y) ∧
      Memory.Tidy Block.owns (s.roots \ {conn}) memory := by
  obtain ⟨serverOut, hcontext, -, htext, -⟩ := hs.conns conn c hconn
  obtain ⟨memory', hmemory', happly, htidy⟩ := hs.tidy.drop (.inr (.inr (by rw [hconn]; rfl))) hcontext
  obtain rfl := Option.some.inj (hmemory'.symm.trans hmemory)
  exact ⟨serverOut, hcontext, htext, happly, htidy⟩

/-- The configuration is freed. -/
theorem Host.Safe.freed (hs : s.Safe) (hglob : s.globs glob = true)
    (hmemory : s.memory.drop Block.owns glob = some memory) :
    (∃ config, s.memory glob = some (.config config)) ∧ (∀ y, memory y = if y = glob then none else s.memory y) ∧
      Memory.Tidy Block.owns (s.roots \ {glob}) memory := by
  obtain ⟨config, hconfig⟩ := hs.globs glob hglob
  obtain ⟨memory', hmemory', happly, htidy⟩ := hs.tidy.drop (.inr (.inl hglob)) hconfig
  obtain rfl := Option.some.inj (hmemory'.symm.trans hmemory)
  refine ⟨⟨config, hconfig⟩, fun y => ?_, htidy⟩
  rw [happly]
  exact if_congr (or_iff_left (by simp [Block.owns])) rfl rfl

end

/-! ## What a call does to a connection -/

/-- The call opens the connection. -/
def HostCall.opens (a : Address) : HostCall → Bool
  | .mechNew (some _) true true _ fresh => fresh == a
  | _ => false

/-- The input that the call has for the connection. -/
def HostCall.inputFor (a : Address) : HostCall → Option ServerInput
  | .mechStep (some conn) call _ => if conn = a then call.input else none
  | _ => none

/-- How the connection came to be what it is after a call. -/
inductive ConnMoves (jose : Jose Jwk Key) (s : Host Key) (a : Address) (s' : Host Key) (c' : Connection) :
    HostCall → Prop
  | kept {call} (hopens : call.opens a = false) (hinput : call.inputFor a = none) (hc : s.conns a = some c')
    (hmemory : ∀ x, s.Uses a x → s'.memory x = s.memory x) (hglob : s'.globs c'.glob = true) :
    ConnMoves jose s a s' c' call
  | opened {glob oparams} (hc : c' = { glob, oparams, published := none })
    (hcontext : s'.memory a = some (.context glob none)) (hglob : s'.globs glob = true)
    (hconfig : ∃ config, s'.memory glob = some (.config config)) :
    ConnMoves jose s a s' c' (.mechNew (some glob) true true oparams a)
  | stepped {call fresh i view config r serverOut} (c : Connection) (hc : s.conns a = some c) (hi : call.input = some i)
    (hview : s.view a = some view) (hconfig : s.configOf a = some config) (hr : i.step jose config view = r)
    (hglob : c'.glob = c.glob) (hoparams : c'.oparams = r.oparams)
    (hcontext : s'.memory a = some (.context c.glob serverOut)) (hmemory : s'.memory c.glob = s.memory c.glob)
    (hctx : serverOut.bind s'.memory.text = r.ctx.serverOut) (hsafe : s'.ConnSafe a c') :
    ConnMoves jose s a s' c' (.mechStep (some a) call fresh)

/-- Memory that changes only where nothing is live agrees on what a connection uses. -/
theorem agree_of_fresh (hs : s.Safe) (hc : s.conns a = some c) {m : Heap Key}
    (hm : ∀ x b, s.memory x = some b → m x = s.memory x) : ∀ x, s.Uses a x → m x = s.memory x := fun x hx => by
  obtain ⟨b, hb⟩ := hs.live_of_uses hc hx
  exact hm x b hb

/-- A block that is gone, or was changed, is none that another connection uses. -/
theorem ne_of_uses (hs : s.Safe) {conn : Address} {c₀ : Connection} (hconn : s.conns conn = some c₀)
    (hc : s.conns a = some c) (hne : a ≠ conn) (hx : s.Uses a x) :
    x ≠ conn ∧ ∀ b, s.memory conn = some b → b.owns ≠ some x := by
  obtain ⟨serverOut, hcontext, -, htext, -⟩ := hs.conns conn c₀ hconn
  rcases hs.uses hc hx with ⟨rfl, _, h⟩ | ⟨-, hglob, config, h⟩ | ⟨hown, h⟩
  · refine ⟨hne, fun b hb hx => ?_⟩
    exact (hs.tidy.owned _ _ _ hb hx).1 (.inr (.inr (by rw [hc]; rfl)))
  · refine ⟨ne_of_memory h hcontext (by simp), fun b hb hx => ?_⟩
    exact (hs.tidy.owned _ _ _ hb hx).1 (.inr (.inl hglob))
  · exact ⟨ne_of_memory h hcontext (by simp), fun b hb hx => hne (hs.tidy.unique _ _ _ _ _ hown hb rfl hx)⟩

theorem opens_of_idle (h : l.Idle) : l.opens a = false := by
  cases l with
  | mechNew globContext params connContext oparams fresh =>
    rcases h with rfl | rfl | rfl
    · rfl
    · cases globContext <;> rfl
    · cases globContext <;> cases params <;> rfl
  | init | mechStep | mechDispose | mechFree => rfl

theorem inputFor_of_idle (h : l.Idle) : l.inputFor a = none := by
  cases l with
  | mechStep connContext call fresh =>
    rcases h with rfl | hinput
    · rfl
    · cases connContext <;> simp [HostCall.inputFor, hinput]
  | init | mechNew | mechDispose | mechFree => rfl

theorem conn_of_moves (hs : s.Safe) (h : s.Moves jose l s') (hc' : s'.conns a = some c') :
    ConnMoves jose s a s' c' l := by
  cases h with
  | left hidle =>
    obtain ⟨-, -, hglob, -⟩ := hs.conns a c' hc'
    exact .kept (opens_of_idle hidle) (inputFor_of_idle hidle) hc' (fun x _ => rfl) hglob
  | listed config hutils hload hglob hplugin hne =>
    obtain ⟨-, -, hold, -⟩ := hs.conns a c' hc'
    refine .kept rfl rfl hc' (agree_of_fresh hs hc' fun x b hx => ?_) ?_
    · dsimp only
      rw [Memory.alloc_apply, if_neg, Memory.alloc_apply, if_neg]
      · rintro rfl
        cases hglob.symm.trans hx
      · rintro rfl
        cases hplugin.symm.trans hx
    · dsimp only
      rw [Function.update_apply]
      split
      · rfl
      · exact hold
  | @opened glob oparams conn hglob hfresh =>
    obtain ⟨config, hconfig⟩ := hs.globs glob hglob
    have hkeep : ∀ x b, s.memory x = some b → s.memory.alloc conn (.context glob none) x = s.memory x := by
      intro x b hx
      rw [Memory.alloc_apply, if_neg]
      rintro rfl
      cases hfresh.symm.trans hx
    dsimp only at hc'
    rw [Function.update_apply] at hc'
    split at hc'
    · rename_i heq
      subst heq
      refine .opened (Option.some.inj hc').symm ?_ hglob ⟨config, (hkeep glob _ hconfig).trans hconfig⟩
      exact (Memory.alloc_apply a).trans (if_pos rfl)
    · rename_i hne
      obtain ⟨-, -, hold, -⟩ := hs.conns a c' hc'
      exact .kept (beq_eq_false_iff_ne.2 (Ne.symm hne)) rfl hc' (agree_of_fresh hs hc' hkeep) hold
  | @answered conn c call fresh i view config hconn hi hview hconfig hctx =>
    dsimp only at hc'
    rw [Function.update_apply] at hc'
    split at hc'
    · rename_i heq
      subst heq
      obtain rfl := Option.some.inj hc'
      obtain ⟨serverOut, hcontext, hglob, htext, hpublished⟩ := hs.conns a c hconn
      refine .stepped c hconn hi hview hconfig rfl rfl rfl hcontext rfl ?_
        ⟨serverOut, hcontext, hglob, htext, fun x hx => by cases hx⟩
      rw [hctx]
      simp only [Host.view, hconn, context_eq_some.2 hcontext, Option.bind_eq_bind, Option.bind_some,
        Option.some.injEq] at hview
      rw [← hview]
    · rename_i hne
      obtain ⟨-, -, hold, -⟩ := hs.conns a c' hc'
      exact .kept rfl (if_neg (Ne.symm hne)) hc' (fun x _ => rfl) hold
  | @rejected conn c call fresh i view config memory hconn hi hview hconfig hctx hfresh hmemory =>
    obtain ⟨-, -, hglob, -⟩ := hs.conns conn c hconn
    obtain ⟨serverOut, hcontext, htext, happly, -⟩ := hs.assigned hconn hfresh hmemory
    dsimp only at hc'
    rw [Function.update_apply] at hc'
    split at hc'
    · rename_i heq
      subst heq
      obtain rfl := Option.some.inj hc'
      obtain ⟨config', hconfig'⟩ := hs.globs c.glob hglob
      have hafter : memory a = some (.context c.glob (some fresh)) := by
        rw [happly, if_neg, if_pos rfl]
        exact fun hown => (hs.tidy.owned _ _ _ hcontext hown).1 (.inr (.inr (by rw [hconn]; rfl)))
      have hdocument : memory fresh = some (.text document) := by
        rw [happly, if_neg, if_neg, if_pos rfl]
        · rintro rfl
          cases hfresh.symm.trans hcontext
        · intro hown
          cases hfresh.symm.trans (htext fresh hown)
      have hsame : memory c.glob = s.memory c.glob := by
        rw [happly, if_neg, if_neg (ne_of_memory hconfig' hcontext (by simp)), if_neg]
        · intro heq
          rw [heq, hfresh] at hconfig'
          cases hconfig'
        · exact fun hown => (hs.tidy.owned _ _ _ hcontext hown).1 (.inr (.inl hglob))
      refine .stepped c hconn hi hview hconfig rfl rfl rfl hafter hsame ?_ ⟨some fresh, hafter, hglob, ?_, ?_⟩
      · rw [hctx, Option.bind_some, text_of_some hdocument]
      · rintro x ⟨⟩
        exact hdocument
      · rintro x ⟨⟩
        rfl
    · rename_i hne
      obtain ⟨-, -, hold, -⟩ := hs.conns a c' hc'
      refine .kept rfl (if_neg (Ne.symm hne)) hc' (fun x hx => ?_) hold
      obtain ⟨hxconn, hxown⟩ := ne_of_uses hs hconn hc' hne hx
      obtain ⟨b, hb⟩ := hs.live_of_uses hc' hx
      have hxout : serverOut ≠ some x := hxown _ hcontext
      dsimp only
      rw [happly, if_neg hxout, if_neg hxconn, if_neg]
      rintro rfl
      cases hfresh.symm.trans hb
  | @disposed conn c memory hconn hmemory =>
    obtain ⟨serverOut, hcontext, -, happly, -⟩ := hs.disposed hconn hmemory
    dsimp only at hc'
    rw [Function.update_apply] at hc'
    split at hc'
    · cases hc'
    · rename_i hne
      obtain ⟨-, -, hold, -⟩ := hs.conns a c' hc'
      refine .kept rfl rfl hc' (fun x hx => ?_) hold
      obtain ⟨hxconn, hxown⟩ := ne_of_uses hs hconn hc' hne hx
      dsimp only
      rw [happly, if_neg]
      rintro (rfl | hown)
      · exact hxconn rfl
      · exact hxown _ hcontext hown
  | @freed glob memory hglob hunused hmemory =>
    obtain ⟨⟨config, hconfig⟩, happly, -⟩ := hs.freed hglob hmemory
    obtain ⟨-, -, hold, -⟩ := hs.conns a c' hc'
    refine .kept rfl rfl hc' (fun x hx => ?_) ?_
    · dsimp only
      rw [happly, if_neg]
      rintro rfl
      rcases hs.uses hc' hx with ⟨-, _, h⟩ | ⟨heq, -⟩ | ⟨-, h⟩
      · exact ne_of_memory h hconfig (by simp) rfl
      · exact hunused a c' hc' heq.symm
      · exact ne_of_memory h hconfig (by simp) rfl
    · dsimp only
      rw [Function.update_apply, if_neg (hunused a c' hc')]
      exact hold

theorem connSafe_of_moves (hs : s.Safe) (h : s.Moves jose l s') (hc' : s'.conns a = some c') : s'.ConnSafe a c' := by
  cases conn_of_moves hs h hc' with
  | kept hopens hinput hc hmemory hglob => exact (hs.conns a c' hc).of_agree hmemory hglob
  | opened hc hcontext hglob hconfig =>
    subst hc
    exact ⟨none, hcontext, hglob, fun x hx => (by cases hx), fun x hx => (by cases hx)⟩
  | stepped c hc hi hview hconfig hr hglob hoparams hcontext hmemory hctx hsafe => exact hsafe

/-! ## Safety is kept -/

/-- No call changes a plugin or a configuration; one is freed if the host says so. -/
theorem memory_of_moves (hs : s.Safe) (h : s.Moves jose l s') {b : Block Key} (hx : s.memory x = some b)
    (hb : (∃ plugin, b = .plugin plugin) ∨ ∃ config, b = .config config) :
    s'.memory x = some b ∨ l = .mechFree (some x) ∧ s'.globs x = false ∧ s.globs x = true := by
  have hcontext : ∀ {y glob serverOut}, s.memory y = some (.context glob serverOut) → x ≠ y := by
    intro y glob serverOut hy
    refine ne_of_memory hx hy ?_
    rcases hb with ⟨_, rfl⟩ | ⟨_, rfl⟩ <;> exact fun h => by cases h
  have htext : ∀ {y t}, s.memory y = some (.text t) → x ≠ y := by
    intro y t hy
    refine ne_of_memory hx hy ?_
    rcases hb with ⟨_, rfl⟩ | ⟨_, rfl⟩ <;> exact fun h => by cases h
  have hfresh : ∀ {y}, s.memory y = none → x ≠ y := by
    rintro y hy rfl
    cases hy.symm.trans hx
  cases h with
  | left | answered => exact .inl hx
  | listed config hutils hload hglob hplugin hne =>
    refine .inl ?_
    dsimp only
    rw [Memory.alloc_apply, if_neg (hfresh hplugin), Memory.alloc_apply, if_neg (hfresh hglob), hx]
  | opened hglob hconn => exact .inl ((Memory.alloc_apply x).trans ((if_neg (hfresh hconn)).trans hx))
  | @rejected conn c call fresh i view config memory hconn hi hview hconfig hctx hnone hmemory =>
    obtain ⟨serverOut, hold, hdocument, happly, -⟩ := hs.assigned hconn hnone hmemory
    refine .inl ?_
    dsimp only
    rw [happly, if_neg fun hown => htext (hdocument x hown) rfl, if_neg (hcontext hold), if_neg (hfresh hnone), hx]
  | @disposed conn c memory hconn hmemory =>
    obtain ⟨serverOut, hold, hdocument, happly, -⟩ := hs.disposed hconn hmemory
    refine .inl ?_
    dsimp only
    rw [happly, if_neg, hx]
    rintro (heq | hown)
    · exact hcontext hold heq
    · exact htext (hdocument x hown) rfl
  | @freed glob memory hglob hunused hmemory =>
    obtain ⟨-, happly, -⟩ := hs.freed hglob hmemory
    by_cases heq : x = glob
    · subst heq
      exact .inr ⟨rfl, Function.update_self .., hglob⟩
    · exact .inl ((happly x).trans ((if_neg heq).trans hx))

theorem plugins_of_moves (h : s.Moves jose l s') (hx : s'.plugins x = true) :
    s.plugins x = true ∨ ∃ glob, s'.memory x = some (.plugin (makeServerPlugin glob)) := by
  cases h with
  | listed config hutils hload hglob hplugin hne =>
    dsimp only at hx
    rw [Function.update_apply] at hx
    split at hx
    · rename_i heq
      exact .inr ⟨_, (Memory.alloc_apply x).trans (if_pos heq)⟩
    · exact .inl hx
  | left | opened | answered | rejected | disposed | freed => exact .inl hx

theorem globs_of_moves (h : s.Moves jose l s') (hx : s'.globs x = true) :
    s.globs x = true ∨ ∃ config, s'.memory x = some (.config config) := by
  cases h with
  | listed config hutils hload hglob hplugin hne =>
    dsimp only at hx
    rw [Function.update_apply] at hx
    split at hx
    · rename_i heq
      subst heq
      refine .inr ⟨config, ?_⟩
      dsimp only
      rw [Memory.alloc_apply, if_neg hne, Memory.alloc_apply, if_pos rfl]
    · exact .inl hx
  | freed hglob hunused hmemory =>
    dsimp only at hx
    rw [Function.update_apply] at hx
    split at hx
    · cases hx
    · exact .inl hx
  | left | opened | answered | rejected | disposed => exact .inl hx

theorem tidy_of_moves (hs : s.Safe) (h : s.Moves jose l s') : Memory.Tidy Block.owns s'.roots s'.memory := by
  cases h with
  | left => exact hs.tidy
  | @listed call glob plugin utils config hutils hload hglob hplugin hne =>
    have htidy := hs.tidy.alloc hglob (b := .config config) rfl
    have hfree : s.memory.alloc glob (.config config) plugin = none := by
      rw [Memory.alloc_apply, if_neg hne.symm, hplugin]
    convert htidy.alloc hfree (b := .plugin (makeServerPlugin glob)) rfl using 1
    ext y
    by_cases hy : y = plugin <;> by_cases hy' : y = glob <;> simp [Host.roots, Function.update_apply, hy, hy']
  | @opened glob oparams conn hglob hfresh =>
    convert hs.tidy.alloc hfresh (b := .context glob none) rfl using 1
    ext y
    by_cases hy : y = conn <;> simp [Host.roots, Function.update_apply, hy]
  | @answered conn c call fresh i view config hconn =>
    convert hs.tidy using 1
    ext y
    by_cases hy : y = conn <;> simp [Host.roots, Function.update_apply, hy, hconn]
  | @rejected conn c call fresh i view config memory hconn hi hview hconfig hctx hfresh hmemory =>
    obtain ⟨-, -, -, -, htidy⟩ := hs.assigned hconn hfresh hmemory
    convert htidy using 1
    ext y
    by_cases hy : y = conn <;> simp [Host.roots, Function.update_apply, hy, hconn]
  | @disposed conn c memory hconn hmemory =>
    obtain ⟨serverOut, hold, -, -, htidy⟩ := hs.disposed hconn hmemory
    convert htidy using 1
    ext y
    by_cases hy : y = conn
    · subst hy
      have hplugin : ¬s.plugins y = true := fun h => ne_of_memory hold (hs.plugins y h).choose_spec (by simp) rfl
      have hglob : ¬s.globs y = true := fun h => ne_of_memory hold (hs.globs y h).choose_spec (by simp) rfl
      simp [Host.roots, hplugin, hglob]
    · simp [Host.roots, Function.update_apply, hy]
  | @freed glob memory hglob hunused hmemory =>
    obtain ⟨⟨config, hconfig⟩, -, htidy⟩ := hs.freed hglob hmemory
    convert htidy using 1
    ext y
    by_cases hy : y = glob
    · subst hy
      have hplugin : ¬s.plugins y = true := fun h => ne_of_memory hconfig (hs.plugins y h).choose_spec (by simp) rfl
      have hconn : s.conns y = none := by
        by_contra hsome
        obtain ⟨c, hc⟩ := Option.ne_none_iff_exists'.1 hsome
        obtain ⟨serverOut, hold, -⟩ := hs.conns y c hc
        exact ne_of_memory hconfig hold (by simp) rfl
      simp [Host.roots, hplugin, hconn]
    · simp [Host.roots, Function.update_apply, hy]

theorem safe_initial : (Host.initial : Host Key).Safe where
  tidy := by
    have hroots : (Host.initial : Host Key).roots = ∅ := by
      ext y
      simp [Host.roots, Host.initial]
    rw [hroots]
    exact Memory.tidy_empty
  plugins a h := by cases h
  globs a h := by cases h
  conns a c h := by cases h

theorem Host.Safe.of_moves (hs : s.Safe) (h : s.Moves jose l s') : s'.Safe where
  tidy := tidy_of_moves hs h
  plugins x hx := by
    rcases plugins_of_moves h hx with hold | hnew
    · obtain ⟨glob, hb⟩ := hs.plugins x hold
      rcases memory_of_moves hs h hb (.inl ⟨_, rfl⟩) with hb' | ⟨-, -, hglob⟩
      · exact ⟨glob, hb'⟩
      · obtain ⟨config, hconfig⟩ := hs.globs x hglob
        exact absurd rfl (ne_of_memory hb hconfig (by simp))
    · exact hnew
  globs x hx := by
    rcases globs_of_moves h hx with hold | hnew
    · obtain ⟨config, hb⟩ := hs.globs x hold
      rcases memory_of_moves hs h hb (.inr ⟨config, rfl⟩) with hb' | ⟨-, hfreed, -⟩
      · exact ⟨config, hb'⟩
      · cases hfreed.symm.trans hx
    · exact hnew
  conns a c hc := connSafe_of_moves hs h hc

theorem moves_of_step (hs : s.Safe) (h : s.Step jose l s') : s.Moves jose l s' := by
  obtain ⟨s'', hcall, hmoves⟩ := @Host.Safe.moves _ _ jose s hs l h.1
  obtain rfl := Option.some.inj (hcall.symm.trans h.2)
  exact hmoves

variable {tr : List (Taken (Host Key) HostCall)}

theorem safe_of_run (h : Run (Host.Step jose) Host.initial tr s) : s.Safe := by
  have hstep : ∀ (s : Host Key) l s', s.Step jose l s' → True → s.Safe → s'.Safe :=
    fun s l s' hstep _ hs => hs.of_moves (moves_of_step hs hstep)
  exact (h.invariant hstep (fun _ _ => trivial) safe_initial).1

/-- In every run, no call that the host may make goes wrong, and what is live is what the host
    holds, or the document of a connection. -/
theorem plugin_safe (h : Run (Host.Step jose) Host.initial tr s) :
    (∀ call, s.Allows call → ∃ s', s.call jose call = some s') ∧
      ∀ x, (∃ b, s.memory x = some b) ↔ s.plugins x = true ∨ s.globs x = true ∨ (s.conns x).isSome ∨
        ∃ conn c, s.conns conn = some c ∧ s.memory conn = some (.context c.glob (some x)) := by
  have hs := safe_of_run h
  refine ⟨fun call hcall => ?_, fun x => hs.tidy.live_iff.trans ?_⟩
  · obtain ⟨s', hs', -⟩ := hs.moves hcall
    exact ⟨s', hs'⟩
  · have hroot : x ∈ s.roots ↔ s.plugins x = true ∨ s.globs x = true ∨ (s.conns x).isSome := Iff.rfl
    rw [hroot, or_assoc, or_assoc]
    refine or_congr_right (or_congr_right (or_congr_right ⟨?_, ?_⟩))
    · rintro ⟨conn, hconn, b, hb, hown⟩
      rcases hconn with hplugin | hglob | hconn
      · obtain ⟨glob, hb'⟩ := hs.plugins conn hplugin
        rw [Option.some.inj (hb.symm.trans hb')] at hown
        cases hown
      · obtain ⟨config, hb'⟩ := hs.globs conn hglob
        rw [Option.some.inj (hb.symm.trans hb')] at hown
        cases hown
      · obtain ⟨c, hc⟩ := Option.isSome_iff_exists.1 hconn
        obtain ⟨serverOut, hb', -⟩ := hs.conns conn c hc
        rw [Option.some.inj (hb.symm.trans hb')] at hown
        exact ⟨conn, c, hc, by rw [hb', show serverOut = some x from hown]⟩
    · rintro ⟨conn, c, hc, hb⟩
      exact ⟨conn, .inr (.inr (by rw [hc]; rfl)), _, hb, rfl⟩

/-- In every run, what a connection has published is the document, and no other connection has
    published it. -/
theorem published_stays (h : Run (Host.Step jose) Host.initial tr s) (hc : s.conns a = some c)
    (hx : c.published = some x) : s.memory x = some (.text document) ∧
      ∀ a' c', s.conns a' = some c' → c'.published = some x → a' = a := by
  have hs := safe_of_run h
  obtain ⟨serverOut, hcontext, -, htext, hpublished⟩ := hs.conns a c hc
  refine ⟨htext x (hpublished x hx), fun a' c' hc' hx' => ?_⟩
  obtain ⟨serverOut', hcontext', -, -, hpublished'⟩ := hs.conns a' c' hc'
  exact hs.tidy.unique _ _ _ _ x hcontext' hcontext (hpublished' x hx') (hpublished x hx)

/-! ## A connection is a run of the server -/

/-- The step of the host as one of the server, if it is one for the connection. -/
def connectionStep (jose : Jose Jwk Key) (a : Address) (t : Taken (Host Key) HostCall) :
    Option (Taken ServerState (ServerInput × ServerResult)) := do
  let i ← t.label.inputFor a
  let view ← t.before.view a
  let config ← t.before.configOf a
  let after ← t.after.view a
  return ⟨view, (i, i.step jose config view), after⟩

/-- The steps since the connection was opened. -/
def sinceOpened (a : Address) (tr : List (Taken (Host Key) HostCall)) : List (Taken (Host Key) HostCall) :=
  since (fun t => t.label.opens a) tr

theorem sinceOpened_append {t : Taken (Host Key) HostCall} (ht : t.label.opens a = false) :
    sinceOpened a (tr ++ [t]) = sinceOpened a tr ++ [t] := by
  rw [sinceOpened, since_append, ht]
  rfl

/-- The connection has come to what it is by steps of its own, since it was opened. -/
structure Connected (jose : Jose Jwk Key) (tr : List (Taken (Host Key) HostCall)) (s : Host Key) (a : Address)
    (c : Connection) (config : ServerConfig Key) (state : ServerState) (oparams : OutParams) : Prop where
  configured : s.configOf a = some config
  viewed : s.view a = some state
  opened : ∃ t post, sinceOpened a tr = t :: post ∧ t.label = .mechNew (some c.glob) true true oparams a
  run : Run (serverMachine jose config) ⟨.new, oparams⟩ ((sinceOpened a tr).filterMap (connectionStep jose a)) state

theorem connected_of_run (h : Run (Host.Step jose) Host.initial tr s) :
    ∀ a c, s.conns a = some c → ∃ config state oparams, Connected jose tr s a c config state oparams := by
  refine h.history (P := fun tr s => ∀ a c, s.conns a = some c →
    ∃ config state oparams, Connected jose tr s a c config state oparams) (fun a c hc => by cases hc) ?_
  intro tr s i s' hrun ih hstep a c' hc'
  have hs := safe_of_run hrun
  have hmoves := moves_of_step hs hstep
  cases conn_of_moves hs hmoves hc' with
  | kept hopens hinput hc hmemory hglob =>
    obtain ⟨config, state, oparams, hcame⟩ := ih a c' hc
    obtain ⟨hview, hconfig⟩ := view_of_agree hs hc hc' hmemory
    have hsince : sinceOpened a (tr ++ [⟨s, i, s'⟩]) = sinceOpened a tr ++ [⟨s, i, s'⟩] := sinceOpened_append hopens
    refine ⟨config, state, oparams, hconfig.trans hcame.configured, hview.trans hcame.viewed, ?_, ?_⟩
    · obtain ⟨t, post, hpost, ht⟩ := hcame.opened
      exact ⟨t, post ++ [⟨s, i, s'⟩], by rw [hsince, hpost, List.cons_append], ht⟩
    · rw [hsince, List.filterMap_append, List.filterMap_cons_none (by simp [connectionStep, hinput]),
        List.filterMap_nil, List.append_nil]
      exact hcame.run
  | @opened glob oparams hc hcontext hglob hconfig =>
    obtain ⟨config, hconfig⟩ := hconfig
    subst hc
    have hsince : sinceOpened a (tr ++ [⟨s, .mechNew (some glob) true true oparams a, s'⟩]) =
        [⟨s, .mechNew (some glob) true true oparams a, s'⟩] :=
      (since_append _ _ _).trans (if_pos (beq_self_eq_true a))
    refine ⟨config, ⟨.new, oparams⟩, oparams, ?_, ?_, ⟨_, [], hsince, rfl⟩, ?_⟩
    · simp [Host.configOf, hc', config_eq_some.2 hconfig]
    · simp [Host.view, hc', context_eq_some.2 hcontext, ServerContext.new]
    · rw [hsince, List.filterMap_cons_none rfl]
      exact .nil
  | @stepped call fresh i view config r serverOut c hc hi hview hconfig hr hglob hoparams hcontext hmemory hctx hsafe =>
    obtain ⟨config', state, oparams, hcame⟩ := ih a c hc
    obtain rfl := Option.some.inj (hconfig.symm.trans hcame.configured)
    obtain rfl := Option.some.inj (hview.symm.trans hcame.viewed)
    have hsince : sinceOpened a (tr ++ [⟨s, .mechStep (some a) call fresh, s'⟩]) =
        sinceOpened a tr ++ [⟨s, .mechStep (some a) call fresh, s'⟩] := sinceOpened_append rfl
    have hafter : s'.view a = some ⟨r.ctx, r.oparams⟩ := by
      simp only [Host.view, hc', context_eq_some.2 hcontext, Option.bind_eq_bind, Option.bind_some, hctx, hoparams]
    have hlabel : HostCall.inputFor a (.mechStep (some a) call fresh) = some i := by
      rw [HostCall.inputFor, if_pos rfl, hi]
    have htaken : connectionStep jose a ⟨s, .mechStep (some a) call fresh, s'⟩ =
        some ⟨view, (i, r), ⟨r.ctx, r.oparams⟩⟩ := by
      simp [connectionStep, hlabel, hview, hconfig, hafter, hr]
    refine ⟨config, ⟨r.ctx, r.oparams⟩, oparams, ?_, hafter, ?_, ?_⟩
    · rw [← hconfig]
      simp only [Host.configOf, hc, hc', Option.bind_eq_bind, Option.bind_some, Heap.config, hglob, hmemory]
    · obtain ⟨t, post, hpost, ht⟩ := hcame.opened
      exact ⟨t, post ++ [⟨s, .mechStep (some a) call fresh, s'⟩], by rw [hsince, hpost, List.cons_append],
        by rw [ht, hglob]⟩
    · rw [hsince, List.filterMap_append, List.filterMap_cons_some htaken, List.filterMap_nil]
      exact Run.append_iff.2 ⟨_, hcame.run, .cons ⟨hr.symm, rfl⟩ .nil⟩

/-- The configuration was loaded to the address. -/
def LoadedIn (jose : Jose Jwk Key) (tr : List (Taken (Host Key) HostCall)) (glob : Address) (config : ServerConfig Key) :
    Prop :=
  ∃ t ∈ tr, ∃ call plugin utils, t.label = .init call glob plugin ∧ call.utils = some utils ∧
    ServerConfig.fromSasl jose call.readFile utils = .ok config

theorem config_of_moves (hs : s.Safe) (h : s.Moves jose l s') {config : ServerConfig Key}
    (hx : s'.memory x = some (.config config)) : s.memory x = some (.config config) ∨
      ∃ call plugin utils, l = .init call x plugin ∧ call.utils = some utils ∧
        ServerConfig.fromSasl jose call.readFile utils = .ok config := by
  cases h with
  | left | answered => exact .inl hx
  | listed config' hutils hload hglob hplugin hne =>
    dsimp only at hx
    rw [Memory.alloc_apply, Memory.alloc_apply] at hx
    split at hx
    · cases hx
    · split at hx
      · rename_i heq
        subst heq
        cases hx
        exact .inr ⟨_, _, _, rfl, hutils, hload⟩
      · exact .inl hx
  | opened hglob hfresh =>
    dsimp only at hx
    rw [Memory.alloc_apply] at hx
    split at hx
    · cases hx
    · exact .inl hx
  | rejected hconn hi hview hconfig hctx hfresh hmemory =>
    obtain ⟨serverOut, -, -, happly, -⟩ := hs.assigned hconn hfresh hmemory
    dsimp only at hx
    rw [happly] at hx
    split_ifs at hx
    · cases hx
    · cases hx
    · exact .inl hx
  | disposed hconn hmemory =>
    obtain ⟨serverOut, -, -, happly, -⟩ := hs.disposed hconn hmemory
    dsimp only at hx
    rw [happly] at hx
    split_ifs at hx
    exact .inl hx
  | freed hglob hunused hmemory =>
    obtain ⟨-, happly, -⟩ := hs.freed hglob hmemory
    dsimp only at hx
    rw [happly] at hx
    split_ifs at hx
    exact .inl hx

theorem loaded_of_run (h : Run (Host.Step jose) Host.initial tr s) :
    ∀ x config, s.memory x = some (.config config) → LoadedIn jose tr x config := by
  refine h.history (P := fun tr s => ∀ x config, s.memory x = some (.config config) → LoadedIn jose tr x config)
    (fun x config hx => by cases hx) ?_
  intro tr s i s' hrun ih hstep x config hx
  have hs := safe_of_run hrun
  rcases config_of_moves hs (moves_of_step hs hstep) hx with hold | ⟨call, plugin, utils, hlabel, hload⟩
  · obtain ⟨t, ht, hloaded⟩ := ih x config hold
    exact ⟨t, List.mem_append_left _ ht, hloaded⟩
  · exact ⟨_, List.mem_append_right _ (List.mem_singleton_self _), call, plugin, utils, hlabel, hload⟩

theorem configOf_eq_some {config : ServerConfig Key} (hc : s.conns a = some c) (h : s.configOf a = some config) :
    s.memory c.glob = some (.config config) := by
  simp only [Host.configOf, hc, Option.bind_eq_bind, Option.bind_some] at h
  exact config_eq_some.1 h

/-- In every run, each connection is a run of the server of its own, with the configuration that
    was loaded for the plugin. -/
theorem connection_run (h : Run (Host.Step jose) Host.initial tr s) (hc : s.conns a = some c) :
    ∃ config state oparams, Connected jose tr s a c config state oparams ∧ LoadedIn jose tr c.glob config := by
  obtain ⟨config, state, oparams, hconnected⟩ := connected_of_run h a c hc
  exact ⟨config, state, oparams, hconnected, loaded_of_run h _ _ (configOf_eq_some hc hconnected.configured)⟩

theorem guard_eq_ok {rc : Option Int} (h : guard rc = saslOk) : rc = some saslOk := by
  cases rc with
  | none => cases h
  | some rc => rw [show rc = saslOk from h]

theorem finish_of_served {config : ServerConfig Key} {i : ServerInput} {state : ServerState} {r : ServerResult}
    (h : Served jose config i state r) (hrc : r.rc = some saslOk) : r.oparams = state.oparams.finish := by
  cases h with
  | accepted => rfl
  | refused rc hneg =>
    obtain rfl := Option.some.inj hrc
    exact absurd hneg (by decide)
  | canonRefused canon rc hne => exact absurd (Option.some.inj hrc) hne
  | aborted | rejected => exact absurd (Option.some.inj hrc) (by decide)

/-- A step that accepts has a token which the configuration of the connection accepts. -/
theorem Host.Safe.acceptable (hs : s.Safe) {call : StepCall} {fresh : Address}
    (hallows : s.Allows (.mechStep (some a) call fresh)) {answer : StepAnswer Key}
    (hanswer : serverMechStep jose (some a) call fresh s.memory = some answer) (hrc : answer.rc = saslOk) :
    ∃ c config i, s.conns a = some c ∧ s.memory c.glob = some (.config config) ∧ call.input = some i ∧
      i.Acceptable jose config ∧
      answer = { rc := saslOk, memory := s.memory, oparams := some c.oparams.finish, published := .cleared } := by
  obtain ⟨c, hc, hoparams⟩ := hallows.2 a rfl
  obtain ⟨serverOut, hcontext, hglob, -⟩ := hs.conns a c hc
  obtain ⟨config, hconfig⟩ := hs.globs c.glob hglob
  rcases @serverMechStep_cases _ _ jose s.memory _ _ _ _ (context_eq_some.2 hcontext) (config_eq_some.2 hconfig)
    call fresh with ⟨-, hstep⟩ | ⟨i, oparams, r, hi, hop, hr, hstep⟩
  · rw [hstep] at hanswer
    obtain rfl := Option.some.inj hanswer
    cases hrc
  · obtain rfl := hoparams oparams hop
    have hserved : Served jose config i { ctx := { serverOut := serverOut.bind s.memory.text }, oparams := c.oparams } r :=
      hr ▸ served_step _ _
    rcases hstep with ⟨-, hstep⟩ | ⟨hcontinue, -, hstep⟩
    · rw [hstep] at hanswer
      obtain rfl := Option.some.inj hanswer
      have hok : r.rc = some saslOk := guard_eq_ok hrc
      refine ⟨c, config, i, hc, hconfig, hi, acceptable_of_served hserved hok, ?_⟩
      rw [hok, finish_of_served hserved hok]
      rfl
    · -- A step that puts a document into the context continues.
      rw [hstep, hcontinue] at hanswer
      obtain ⟨memory, -, hanswer⟩ := Option.map_eq_some_iff.1 hanswer
      rw [← hanswer] at hrc
      cases hrc

namespace Fixture

/-- The options of the plugin. -/
def pluginOptions : List (String × String) :=
  [("oauthbearer_trusted_iss0", "https://sso.example.org/realms/master"), ("oauthbearer_trusted_jwks0", "keys.json"),
    ("oauthbearer_trusted_aud0", "ldaps://example.org/")]

/-- Services on a connection secured by TLS, with these options. -/
def pluginUtils : Utils where
  getopt := some fun c =>
    match (fromUtf8 c.bytes).bind fun name => pluginOptions.lookup name with
    | some v => (saslOk, some (utf8 v ++ [0]))
    | none => (saslFail, none)
  getprop := some (saslOk, some 256)
  getcallback := none
  malloc := none

def initCall : InitCall where
  utils := some pluginUtils
  maxvers := saslServerPlugVersion
  outvers := true
  pluglist := true
  plugcount := true
  readFile := fun _ => .ok CrudeOAuth.Fixture.jwksJson

/-- A client sends a token, and every name is accepted. -/
def stepCall (token : String) : StepCall where
  now := some 1000
  params := some { utils := some pluginUtils, canonUser := some fun _ => saslOk }
  clientIn := some (buildClientResponse none token)
  clientInLen := (buildClientResponse none token).length
  serverOut := true
  serverOutLen := true
  oparams := some oparams

/-- Two connections of one plugin; both have a token rejected. -/
def hostCalls : List HostCall :=
  [.init initCall 1 2, .mechNew (some 1) true true oparams 3, .mechNew (some 1) true true oparams 4,
    .mechStep (some 3) (stepCall "revoked") 5, .mechStep (some 4) (stepCall "revoked") 6]

/-- Whether one of these calls may be made. -/
def allowed (s : Host (String × String)) : HostCall → Bool
  | .init _ glob plugin => (s.memory glob).isNone && (s.memory plugin).isNone && glob != plugin
  | .mechNew (some glob) _ _ _ fresh => (s.memory fresh).isNone && s.globs glob
  | .mechStep (some conn) call fresh => (s.memory fresh).isNone &&
    (s.conns conn).any fun c => call.oparams == some c.oparams
  | _ => false

theorem allows_of_allowed {s : Host (String × String)} {l : HostCall} (h : allowed s l = true) : s.Allows l := by
  cases l with
  | init call glob plugin => simpa [allowed, Host.Allows, and_assoc] using h
  | mechNew globContext params connContext oparams fresh =>
    cases globContext with
    | none => cases h
    | some glob => simpa [allowed, Host.Allows] using h
  | mechStep connContext call fresh =>
    cases connContext with
    | none => cases h
    | some conn =>
      simp only [allowed, Bool.and_eq_true, Option.isNone_iff_eq_none, Option.any_eq_true, beq_iff_eq] at h
      obtain ⟨hfresh, c, hc, hoparams⟩ := h
      refine ⟨hfresh, ?_⟩
      rintro _ ⟨⟩
      exact ⟨c, hc, fun oparams hop => Option.some.inj (hop.symm.trans hoparams)⟩
  | mechDispose | mechFree => cases h

def nextHost (s : Host (String × String)) (l : HostCall) : Option (Host (String × String)) :=
  if allowed s l then s.call CrudeOAuth.Fixture.jose l else none

def hostRun : Option (List (Taken (Host (String × String)) HostCall) × Host (String × String)) :=
  exec nextHost Host.initial hostCalls

/-- The calls make a run, which leaves the first connection at 3 and the second one at 4. -/
theorem exists_hostRun : ∃ tr s, Run (Host.Step CrudeOAuth.Fixture.jose) Host.initial tr s ∧ hostRun = some (tr, s) ∧
    s.conns 3 = some ⟨1, oparams, some 5⟩ ∧ s.conns 4 = some ⟨1, oparams, some 6⟩ := by
  obtain ⟨⟨tr, s⟩, hexec⟩ := Option.isSome_iff_exists.1 (by decide +kernel : hostRun.isSome = true)
  have hconns : (hostRun.map fun r => (r.2.conns 3, r.2.conns 4)) =
    some (some ⟨1, oparams, some 5⟩, some ⟨1, oparams, some 6⟩) := by decide +kernel
  rw [hexec] at hconns
  refine ⟨tr, s, (Run.of_exec hexec).mono fun s l s' h => ?_, hexec, Prod.mk.inj (Option.some.inj hconns)⟩
  rw [nextHost] at h
  split at h
  · rename_i hallowed
    exact ⟨allows_of_allowed hallowed, h⟩
  · cases h

end Fixture

theorem plugin_safe_fixture : ∃ tr s, Run (Host.Step CrudeOAuth.Fixture.jose) Host.initial tr s ∧
    (s.conns 3).isSome ∧ ∃ s', s.call CrudeOAuth.Fixture.jose (.mechDispose (some 3)) = some s' := by
  obtain ⟨tr, s, hrun, -, hconn, -⟩ := Fixture.exists_hostRun
  have hopen : (s.conns 3).isSome := by rw [hconn]; rfl
  refine ⟨tr, s, hrun, hopen, (plugin_safe hrun).1 _ ?_⟩
  rintro _ ⟨⟩
  exact hopen

theorem published_stays_fixture : ∃ tr s, Run (Host.Step CrudeOAuth.Fixture.jose) Host.initial tr s ∧
    s.memory 5 = some (.text document) ∧ s.memory 6 = some (.text document) := by
  obtain ⟨tr, s, hrun, -, hthree, hfour⟩ := Fixture.exists_hostRun
  exact ⟨tr, s, hrun, (published_stays hrun hthree rfl).1, (published_stays hrun hfour rfl).1⟩

theorem connection_run_fixture : ∃ tr s, Run (Host.Step CrudeOAuth.Fixture.jose) Host.initial tr s ∧
    ∃ config state oparams, Connected CrudeOAuth.Fixture.jose tr s 3 ⟨1, Fixture.oparams, some 5⟩ config state oparams ∧
      LoadedIn CrudeOAuth.Fixture.jose tr 1 config := by
  obtain ⟨tr, s, hrun, -, hconn, -⟩ := Fixture.exists_hostRun
  exact ⟨tr, s, hrun, connection_run hrun hconn⟩

end CrudeOAuth.Sasl
