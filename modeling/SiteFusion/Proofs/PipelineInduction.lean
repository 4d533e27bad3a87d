import SiteFusion.Pipeline.Run
import SiteFusion.Proofs.Numbering

namespace SiteFusion

/-- A relation between what goes into a transformation and what comes out of it, with a look at
whether a change is reported. It carries over from one transformation to the next. -/
structure Chains {α : Type} (R : α → Bool → α → Prop) : Prop where
  refl : ∀ a, R a false a
  trans : ∀ {a b c p q}, R a p b → R b q c → R a (p || q) c

def Respects {α : Type} (t : α → Edit (α × Report)) (R : α → Bool → α → Prop) : Prop :=
  ∀ a b r, t a = .ok (b, r) → R a r.modified b

/-- A relation between functions and one between modules that all passes respect, fusion apart. -/
structure PassRelation (F : Function → Bool → Function → Prop) (R : Module → Bool → Module → Prop) :
    Prop where
  functions : Chains F
  modules : Chains R
  lift : ∀ {m k f g b}, m.function? k = some f → f.isOptimizable = true → F f b g →
    R m b (m.setFunction k g)
  functionPass : ∀ p : FunctionPass, Respects p.transform F
  mergeConstants : Respects Duplicates.mergeConstants R
  simplifyGlobals : Respects Globals.simplify R
  pruneGlobals : Respects Globals.prune R
  mergeFunctions : Respects Duplicates.mergeFunctions R

variable {F : Function → Bool → Function → Prop} {R : Module → Bool → Module → Prop}
  {fuse inner : ModuleTransform}

namespace PassRelation

theorem runPasses (h : PassRelation F R) (ps : List FunctionPass) : Respects (runPasses ps) F := by
  intro f g r hf
  induction ps generalizing f r with
  | nil =>
    cases hf
    exact h.functions.refl _
  | cons p ps ih =>
    obtain ⟨⟨f₁, r₁⟩, h₁, hf⟩ := bind_eq_ok.mp hf
    obtain ⟨⟨f₂, r₂⟩, h₂, hf⟩ := bind_eq_ok.mp hf
    cases hf
    exact h.functions.trans (h.functionPass p f f₁ r₁ h₁) (ih f₁ r₂ h₂)

variable {t : FunctionTransform}

theorem transformEach (h : PassRelation F R) (ht : Respects t F) {ks : List FuncId} {m n : Module}
    {r r' : Report} (hm : transformEach t ks m r = .ok (n, r')) :
    ∃ b, r'.modified = (r.modified || b) ∧ R m b n := by
  induction ks generalizing m r with
  | nil =>
    cases hm
    exact ⟨false, (Bool.or_false _).symm, h.modules.refl _⟩
  | cons k ks ih =>
    unfold SiteFusion.transformEach at hm
    split at hm
    · exact ih hm
    · next f hf =>
      split at hm
      · next ho =>
        obtain ⟨⟨g, s⟩, h₁, hm⟩ := bind_eq_ok.mp hm
        obtain ⟨b, hb, hn⟩ := ih hm
        refine ⟨s.modified || b, ?_, h.modules.trans (h.lift hf ho (ht f g s h₁)) hn⟩
        rw [hb, ← Bool.or_assoc]
        rfl
      · exact ih hm

theorem eachFunction (h : PassRelation F R) (ht : Respects t F) : Respects (eachFunction t) R := by
  intro m n r hm
  obtain ⟨b, hb, hn⟩ := h.transformEach ht hm
  rw [hb]
  exact hn

theorem pass (h : PassRelation F R) (hf : Respects fuse R) (p : Pass) :
    Respects (p.transform fuse) R := by
  cases p with
  | onFunctions p => exact h.eachFunction (h.functionPass p)
  | onModule p =>
    cases p with
    | mergeConstants => exact h.mergeConstants
    | simplifyGlobals => exact h.simplifyGlobals
    | pruneGlobals => exact h.pruneGlobals
    | mergeFunctions => exact h.mergeFunctions
    | fuse => exact hf

theorem pipeline (h : PassRelation F R) (hf : Respects fuse R) (p : Pipeline) :
    Respects (Pipeline.transform fuse p) R := by
  intro m n r hm
  induction p generalizing m r with
  | nil =>
    cases hm
    exact h.modules.refl _
  | cons s p ih =>
    obtain ⟨⟨m₁, r₁⟩, h₁, hm⟩ := bind_eq_ok.mp hm
    obtain ⟨⟨m₂, r₂⟩, h₂, hm⟩ := bind_eq_ok.mp hm
    cases hm
    refine h.modules.trans ?_ (ih m₁ r₂ h₂)
    cases s with
    | pass p => exact h.pass hf p m m₁ r₁ h₁
    | functions ps => exact h.eachFunction (h.runPasses ps) m m₁ r₁ h₁

end PassRelation

theorem FusionCount.modified_report (c : FusionCount) : c.report.modified = c.modified := by
  unfold report
  cases c.modified with
  | true => rfl
  | false => rfl

variable {settings : Settings}

theorem PassRelation.cleanUp (h : PassRelation F R) (hi : Respects inner R) :
    Respects (Fusion.cleanUp inner settings) R := by
  intro m n r hm
  unfold Fusion.cleanUp at hm
  split at hm
  · next p _ => exact h.pipeline hi p m n r hm
  · cases hm
    exact h.modules.refl _

theorem Fusion.runWith_cases {m n : Module} {r : Except FusionFault Report}
    (hm : runWith inner settings m = .ok (n, r)) :
    (n = m ∧ ∃ e, r = .error e) ∨
    ∃ (prepare : Pipeline) (m₁ : Module) (r₁ : Report) (s : Rounds) (e : Option FusionFault),
      entryFault? m = none ∧ prepare.transform inner m = .ok (m₁, r₁) ∧
      (Rounds.start settings m₁).run = .ok (s, e) ∧
      ((∃ x, e = some x ∧ n = s.module ∧ r = .error x) ∨
        e = none ∧ ∃ r₂, cleanUp inner settings s.module = .ok (n, r₂) ∧
          ((∃ x, finalFault? settings n = some x ∧ r = .error x) ∨
            r = .ok ((r₁.combine s.count.report).combine r₂))) := by
  unfold runWith at hm
  split at hm
  · cases hm
    exact .inl ⟨rfl, _, rfl⟩
  · next prepare _ =>
    split at hm
    · cases hm
      exact .inl ⟨rfl, _, rfl⟩
    · next hentry =>
      obtain ⟨⟨m₁, r₁⟩, h₁, hm⟩ := bind_eq_ok.mp hm
      obtain ⟨⟨s, e⟩, h₂, hm⟩ := bind_eq_ok.mp hm
      refine .inr ⟨prepare, m₁, r₁, s, e, hentry, h₁, h₂, ?_⟩
      cases e with
      | some x =>
        cases hm
        exact .inl ⟨x, rfl, rfl, rfl⟩
      | none =>
        obtain ⟨⟨m₃, r₂⟩, h₃, hm⟩ := bind_eq_ok.mp hm
        refine .inr ⟨rfl, ?_⟩
        dsimp only at hm
        split at hm
        · next x hx =>
          cases hm
          exact ⟨r₂, h₃, .inl ⟨x, hx, rfl⟩⟩
        · cases hm
          exact ⟨r₂, h₃, .inr rfl⟩

theorem PassRelation.fusion (h : PassRelation F R) (hi : Respects inner R)
    (hrun : ∀ m b m₁ s e, Fusion.entryFault? m = none → R m b m₁ →
      (Rounds.start settings m₁).run = .ok (s, e) →
      (e = none → R m (b || s.count.modified) s.module) ∧ (e ≠ none → R m false s.module))
    (hverify : settings.verify = true → ∀ m b n, R m b n → R m false n) :
    Respects (Fusion.passWith inner settings) R := by
  intro m n r hm
  obtain ⟨⟨m', r'⟩, h₁, hm⟩ := bind_eq_ok.mp hm
  rcases Fusion.runWith_cases h₁ with ⟨rfl, e, rfl⟩ | ⟨prepare, m₁, r₁, s, e, hentry, h₂, h₃, hend⟩
  · cases hm
    exact h.modules.refl _
  · obtain ⟨hok, hstop⟩ := hrun m r₁.modified m₁ s e hentry (h.pipeline hi prepare m m₁ r₁ h₂) h₃
    rcases hend with ⟨x, rfl, rfl, rfl⟩ | ⟨rfl, r₂, h₄, hend⟩
    · cases hm
      exact hstop (by simp)
    · have hn := h.modules.trans (hok rfl) (h.cleanUp hi s.module m' r₂ h₄)
      rcases hend with ⟨x, hx, rfl⟩ | rfl
      · cases hm
        have hv : settings.verify = true := by
          by_contra hv
          rw [Fusion.finalFault?, if_neg hv] at hx
          cases hx
        exact hverify hv _ _ _ hn
      · cases hm
        rw [← FusionCount.modified_report] at hn
        exact hn

end SiteFusion
