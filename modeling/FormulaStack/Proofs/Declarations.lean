import FormulaStack.Proofs.Runs

/-!
Where declarations are global, whatever was requested of an environment is declared in the session
of each of its open stacks: no assertion fails for want of a declaration.
-/
namespace FormulaStack

namespace Client

variable {c : Client} {id : Nat} {s : AssertionStack FoldingSolver} {ctx : Context}

/-- The symbols that were requested of an environment are declared in the session of every open
stack, and what is made of them can be asserted without an unknown symbol, at any depth. -/
theorem requested_declared (hc : Reachable c) (hs : c.world.stack? id = some s)
    (ho : s.closed = false) (hctx : c.world.contexts[s.home]? = some ctx)
    (hg : ctx.options.globalDeclarations = true) :
    (∀ symbol ∈ ctx.env.declared, ∃ d, ctx.env.terms.declOf symbol = .ok d ∧
      ∃ frame ∈ s.session.frames.toList, d ∈ frame.declared) ∧
    ∀ (f : BoolFormula) (partition : Option Nat),
      (∀ d ∈ ctx.env.terms.symbols f.term,
        ∃ symbol ∈ ctx.env.declared, ctx.env.terms.declOf symbol = .ok d) →
      ∀ name, ((World.atStack id (Site.assert f partition)).exec c.world).1 ≠
        .error (.solver (.undeclared name)) := by
  have hvalid := hc.valid
  obtain ⟨ctx', hctx', hstack⟩ := hvalid.sound.stack id s hs
  rw [hctx] at hctx'
  cases hctx'
  have hknows := hvalid.knows id s hs ho (hstack.replaying.trans hg) ctx hctx
  refine ⟨fun symbol hm => ?_, fun f partition hf name hx => ?_⟩
  · obtain ⟨d, hd⟩ := (hvalid.sound.context _ ctx hctx).declarable symbol hm
    exact ⟨d, hd, FoldingSolver.isDeclared_iff.1 (hknows symbol hm d hd)⟩
  · rw [World.exec_atStack hs hctx] at hx
    have hasserts := Site.assert_asserts f partition (World.site_sound hvalid.sound hs hctx) ho
    obtain ⟨d, hd, hundeclared⟩ := hasserts.undeclared name hx
    obtain ⟨symbol, hm, hsd⟩ := hf d hd
    have hdeclared := hknows symbol hm d hsd
    rw [show s.session.isDeclared d = false from hundeclared] at hdeclared
    cases hdeclared

/-- A constant that is requested above the base, and then a pop to the base. -/
def popped : Client :=
  start.afterAll [.addContext .everything false false default none, .openStack 0 false,
    .atStack 0 (.push 2), .constant 0 .boolean "x", .atStack 0 (.pop 2)]

theorem requested_declared_popped :
    ∃ s ctx, popped.world.stack? 0 = some s ∧ popped.world.contexts[s.home]? = some ctx ∧
      ctx.env.declared = [.boolean ⟨0⟩] ∧
      (∃ frame ∈ s.session.frames.toList, ⟨0⟩ ∈ frame.declared) ∧
      ∀ partition name,
        ((World.atStack 0 (Site.assert ⟨⟨⟨0⟩, .boolean, 0, none⟩, rfl⟩ partition)).exec
          popped.world).1 ≠ .error (.solver (.undeclared name)) := by
  have hstack : (popped.world.stack? 0).map (fun s => (s.closed, s.home)) = some (false, 0) := by
    decide +kernel
  have hcontext : (popped.world.contexts[0]?).map (fun ctx =>
      (ctx.options.globalDeclarations, ctx.env.declared, ctx.env.terms.symbols ⟨0⟩,
        (ctx.env.terms.declOf (.boolean ⟨0⟩)).toOption)) =
      some (true, [.boolean ⟨0⟩], [⟨0⟩], some ⟨0⟩) := by
    decide +kernel
  obtain ⟨s, hs, hs'⟩ := Option.map_eq_some_iff.1 hstack
  obtain ⟨ctx, hctx, hctx'⟩ := Option.map_eq_some_iff.1 hcontext
  simp only [Prod.mk.injEq] at hs' hctx'
  obtain ⟨ho, hh⟩ := hs'
  obtain ⟨hg, hdeclared, hsymbols, hdecl⟩ := hctx'
  have hd : ctx.env.terms.declOf (.boolean ⟨0⟩) = .ok ⟨0⟩ := by
    cases hd : ctx.env.terms.declOf (.boolean ⟨0⟩) <;> rw [hd] at hdecl <;> cases hdecl
    rfl
  rw [← hh] at hctx
  have hreachable : Reachable popped := run_afterAll start _
  obtain ⟨hframes, hasserts⟩ := requested_declared hreachable hs ho hctx hg
  refine ⟨s, ctx, hs, hctx, hdeclared, ?_, fun partition => hasserts _ partition fun d hm => ?_⟩
  · obtain ⟨d, hd', hframe⟩ := hframes (.boolean ⟨0⟩) (by simp [hdeclared])
    cases hd.symm.trans hd'
    exact hframe
  · change d ∈ ctx.env.terms.symbols ⟨0⟩ at hm
    rw [hsymbols, List.mem_singleton] at hm
    exact ⟨.boolean ⟨0⟩, by simp [hdeclared], hm ▸ hd⟩

end Client
end FormulaStack
