import ParallelPrograms.MessagePassing

namespace ParallelPrograms
open Relation

variable {ρ τ μ σ σ' : Type*}

def Action.map (f : σ → σ') : Action ρ τ μ σ → Action ρ τ μ σ'
  | .send dest tag message next => .send dest tag message (f next)
  | .recv source tag next => .recv source tag (f ∘ next)
  | .compute outcome => .compute (f '' outcome)
  | .stop => .stop

def Action.All (I : σ → Prop) : Action ρ τ μ σ → Prop
  | .send _ _ _ next => I next
  | .recv _ _ next => ∀ m, I (next m)
  | .compute outcome => ∀ s ∈ outcome, I s
  | .stop => True

theorem Action.All.imp {I J : σ → Prop} (h : ∀ s, I s → J s) {a : Action ρ τ μ σ} (ha : a.All I) :
    a.All J := by
  cases a with
  | send dest tag message next => exact h _ ha
  | recv source tag next => exact fun m => h _ (ha m)
  | compute outcome => exact fun s hs => h _ (ha s hs)
  | stop => exact ha

theorem Action.All.and {I J : σ → Prop} {a : Action ρ τ μ σ} (ha : a.All I) (hb : a.All J) :
    a.All fun s => I s ∧ J s := by
  cases a with
  | send dest tag message next => exact ⟨ha, hb⟩
  | recv source tag next => exact fun m => ⟨ha m, hb m⟩
  | compute outcome => exact fun s hs => ⟨ha s hs, hb s hs⟩
  | stop => exact ha

theorem Action.All.map {f : σ → σ'} {I : σ' → Prop} {a : Action ρ τ μ σ}
    (ha : a.All fun s => I (f s)) : (a.map f).All I := by
  cases a with
  | send dest tag message next => exact ha
  | recv source tag next => exact ha
  | compute outcome =>
    rintro _ ⟨s, hs, rfl⟩
    exact ha s hs
  | stop => exact ha

def Config.map (f : σ → σ') (c : Config ρ τ μ σ) : Config ρ τ μ σ' := ⟨f ∘ c.loc, c.channel⟩

def Network.acts (net : Network ρ τ μ σ) (r : ρ) (s : σ) (a : Action ρ τ μ σ) : Prop :=
  net.action r s = a

variable [DecidableEq ρ] [DecidableEq τ]

/-- A step of ranks that may have several actions each. -/
inductive ThreadedStep (acts : ρ → σ → Action ρ τ μ σ → Prop) (mode : Mode) :
    Config ρ τ μ σ → Config ρ τ μ σ → Prop
  | compute {loc channel r outcome s} : acts r (loc r) (.compute outcome) → s ∈ outcome →
      ThreadedStep acts mode ⟨loc, channel⟩ ⟨Function.update loc r s, channel⟩
  | post {loc channel r dest tag m next} : mode ≠ .rendezvous →
      acts r (loc r) (.send dest tag m next) →
      ThreadedStep acts mode ⟨loc, channel⟩ ⟨Function.update loc r next,
        Function.update channel (r, dest, tag) (channel (r, dest, tag) ++ [m])⟩
  | receive {loc channel r source tag next m rest} : acts r (loc r) (.recv source tag next) →
      channel (source, r, tag) = m :: rest →
      ThreadedStep acts mode ⟨loc, channel⟩
        ⟨Function.update loc r (next m), Function.update channel (source, r, tag) rest⟩
  | exchange {loc channel r dest tag m next next'} : mode ≠ .buffered → r ≠ dest →
      acts r (loc r) (.send dest tag m next) → acts dest (loc dest) (.recv r tag next') →
      channel (r, dest, tag) = [] →
      ThreadedStep acts mode ⟨loc, channel⟩
        ⟨Function.update (Function.update loc r next) dest (next' m), channel⟩

def Computes (acts : ρ → σ → Action ρ τ μ σ → Prop) (r : ρ) (s s' : σ) : Prop :=
  ∃ outcome, acts r s (.compute outcome) ∧ s' ∈ outcome

variable {acts : ρ → σ → Action ρ τ μ σ → Prop} {net : Network ρ τ μ σ} {mode : Mode}
  {c d : Config ρ τ μ σ}

theorem reach_of_computes (mode : Mode) (loc : ρ → σ) (channel : ρ × ρ × τ → List μ) {r : ρ}
    {x y : σ} (h : ReflTransGen (Computes acts r) x y) :
    ReflTransGen (ThreadedStep acts mode) ⟨Function.update loc r x, channel⟩
      ⟨Function.update loc r y, channel⟩ := by
  induction h with
  | refl => exact .refl
  | @tail y z _ hstep ih =>
    obtain ⟨outcome, ha, hz⟩ := hstep
    have hs : ThreadedStep acts mode ⟨Function.update loc r y, channel⟩
        ⟨Function.update (Function.update loc r y) r z, channel⟩ :=
      .compute (by rwa [Function.update_self]) hz
    rw [Function.update_idem] at hs
    exact ih.tail hs

/-- A property that no action of a rank breaks is kept by every step. -/
theorem ThreadedStep.invariant {I : ρ → σ → Prop}
    (hkeep : ∀ r s a, acts r s a → I r s → a.All (I r)) (h : ThreadedStep acts mode c d)
    (hc : ∀ r, I r (c.loc r)) (r : ρ) : I r (d.loc r) := by
  have hupdate : ∀ {loc : ρ → σ} {a : ρ} {s : σ}, (∀ r, I r (loc r)) → I a s →
      ∀ r, I r (Function.update loc a s r) := by
    intro loc a s hloc hs r
    by_cases hr : r = a
    · rw [hr, Function.update_self]
      exact hs
    · rw [Function.update_of_ne hr]
      exact hloc r
  cases h with
  | compute ha hs => exact hupdate hc (hkeep _ _ _ ha (hc _) _ hs) r
  | post _ ha => exact hupdate hc (hkeep _ _ _ ha (hc _)) r
  | receive ha _ => exact hupdate hc (hkeep _ _ _ ha (hc _) _) r
  | exchange _ _ ha hb _ =>
    exact hupdate (hupdate hc (hkeep _ _ _ ha (hc _))) (hkeep _ _ _ hb (hc _) _) r

theorem Step.threaded (hacts : ∀ r s, net.action r s ≠ .stop → acts r s (net.action r s))
    (h : Step net mode c d) : ThreadedStep acts mode c d := by
  have hact : ∀ {r s a}, net.action r s = a → a ≠ .stop → acts r s a := by
    rintro r s a rfl hne
    exact hacts r s hne
  cases h with
  | compute ha hs => exact .compute (hact ha nofun) hs
  | post hm ha => exact .post hm (hact ha nofun)
  | receive ha hch => exact .receive (hact ha nofun) hch
  | exchange hm ha hb hch =>
    exact .exchange hm (rank_ne ha hb nofun) (hact ha nofun) (hact hb nofun) hch

theorem ThreadedStep.step (h : ThreadedStep net.acts mode c d) : Step net mode c d := by
  cases h with
  | compute ha hs => exact .compute ha hs
  | post hm ha => exact .post hm ha
  | receive ha hch => exact .receive ha hch
  | exchange hm _ ha hb hch => exact .exchange hm ha hb hch

section Simulation

variable {net' : Network ρ τ μ σ'} {f : σ → σ'}

/-- In the states of `f` the network `net'` sends and receives as `net` does. -/
structure Network.Speaks (net' : Network ρ τ μ σ') (net : Network ρ τ μ σ) (f : σ → σ') :
    Prop where
  send : ∀ {r s dest tag m next}, net.action r s = .send dest tag m next →
    net'.action r (f s) = .send dest tag m (f next)
  recv : ∀ {r s source tag next}, net.action r s = .recv source tag next →
    net'.action r (f s) = .recv source tag (f ∘ next)

/-- What `net` computes in one step, `net'` can compute in some. -/
structure Network.Simulates (net' : Network ρ τ μ σ') (net : Network ρ τ μ σ) (f : σ → σ') : Prop
    extends net'.Speaks net f where
  compute : ∀ {r s s'}, Computes net.acts r s s' →
    ReflTransGen (Computes net'.acts r) (f s) (f s')

theorem Step.simulate (h : net'.Simulates net f) (hs : Step net mode c d) :
    Reach net' mode (c.map f) (d.map f) := by
  cases hs with
  | @compute loc channel r outcome s ha hs =>
    have hreach := reach_of_computes mode (f ∘ loc) channel (h.compute ⟨outcome, ha, hs⟩)
    rw [show f (loc r) = (f ∘ loc) r from rfl, Function.update_eq_self] at hreach
    rw [Config.map, Config.map, Function.comp_update]
    exact ReflTransGen.mono (fun _ _ => ThreadedStep.step) _ _ hreach
  | post hm ha =>
    rw [Config.map, Config.map, Function.comp_update]
    exact .single (.post hm (h.send ha))
  | @receive loc channel r source tag next m rest ha hch =>
    have hstep : Step net' mode ⟨f ∘ loc, channel⟩ ⟨Function.update (f ∘ loc) r ((f ∘ next) m),
        Function.update channel (source, r, tag) rest⟩ :=
      .receive (h.recv ha) hch
    rw [Config.map, Config.map, Function.comp_update]
    exact .single hstep
  | @exchange loc channel r dest tag m next next' hm ha hb hch =>
    have hstep : Step net' mode ⟨f ∘ loc, channel⟩
        ⟨Function.update (Function.update (f ∘ loc) r (f next)) dest ((f ∘ next') m), channel⟩ :=
      .exchange hm (h.send ha) (h.recv hb) hch
    rw [Config.map, Config.map, Function.comp_update, Function.comp_update]
    exact .single hstep

/-- A run of the one is a run of the other. -/
theorem Reach.simulate (h : net'.Simulates net f) (hc : Reach net mode c d) :
    Reach net' mode (c.map f) (d.map f) := by
  induction hc with
  | refl => exact .refl
  | tail _ hs ih => exact ih.trans (hs.simulate h)

omit [DecidableEq ρ] [DecidableEq τ] in
theorem Session.map (h : net'.Speaks net f) {a b : ρ} {p q : σ × σ} (hs : Session net a b p q) :
    Session net' a b (Prod.map f f p) (Prod.map f f q) := by
  cases hs with
  | forth ha hb hk => exact .forth (h.send ha) (h.recv hb) (congrArg f hk)
  | back hb ha hk => exact .back (h.send hb) (h.recv ha) (congrArg f hk)

end Simulation
end ParallelPrograms
