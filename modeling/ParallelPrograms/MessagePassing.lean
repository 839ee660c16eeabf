import Mathlib.Data.Set.Basic
import ParallelPrograms.Confluence

namespace ParallelPrograms
open Relation

variable {ρ τ μ σ : Type*}

/-- What a rank does next.  A computation may have several outcomes. -/
inductive Action (ρ τ μ σ : Type*) where
  | send (dest : ρ) (tag : τ) (message : μ) (next : σ)
  | recv (source : ρ) (tag : τ) (next : μ → σ)
  | compute (outcome : Set σ)
  | stop

/-- The program of every rank.  The outcomes of one computation can be brought together
again by one further computation each, so that a rank by itself is confluent. -/
structure Network (ρ τ μ σ : Type*) where
  action : ρ → σ → Action ρ τ μ σ
  compute_join : ∀ {r s outcome x y}, action r s = .compute outcome → x ∈ outcome →
    y ∈ outcome → x = y ∨ ∃ X Y z, action r x = .compute X ∧ z ∈ X ∧
      action r y = .compute Y ∧ z ∈ Y

/-- `R r` holds between the states of rank `r` before and after any of its actions. -/
structure Network.Advances (net : Network ρ τ μ σ) (R : ρ → σ → σ → Prop) : Prop where
  refl : ∀ r s, R r s s
  trans : ∀ {r x y z}, R r x y → R r y z → R r x z
  compute : ∀ {r s outcome s'}, net.action r s = .compute outcome → s' ∈ outcome → R r s s'
  send : ∀ {r s dest tag m s'}, net.action r s = .send dest tag m s' → R r s s'
  recv : ∀ {r s source tag k}, net.action r s = .recv source tag k → ∀ m, R r s (k m)

theorem Network.stop_advances (net : Network ρ τ μ σ) :
    net.Advances fun r s s' => net.action r s = .stop → s' = s where
  refl _ _ _ := rfl
  trans hxy hyz hx := by
    obtain rfl := hxy hx
    exact hyz hx
  compute ha _ hs := by simp [ha] at hs
  send ha hs := by simp [ha] at hs
  recv ha _ hs := by simp [ha] at hs

/-- The local state of every rank and the messages under way from a source to a
destination with a tag, oldest first. -/
@[ext]
structure Config (ρ τ μ σ : Type*) where
  loc : ρ → σ
  channel : ρ × ρ × τ → List μ

/-- How the implementation completes a send: it leaves the message in the channel, waits for the
receive, or may do either. -/
inductive Mode where
  | buffered
  | rendezvous
  | either
  deriving DecidableEq

theorem Network.Advances.update [DecidableEq ρ] {net : Network ρ τ μ σ} {R : ρ → σ → σ → Prop}
    (h : net.Advances R) {loc : ρ → σ} {a : ρ}
    {x : σ} (hx : R a (loc a) x) (r : ρ) : R r (loc r) (Function.update loc a x r) := by
  by_cases hr : r = a
  · subst hr
    rwa [Function.update_self]
  · rw [Function.update_of_ne hr]
    exact h.refl r _

variable [DecidableEq ρ] [DecidableEq τ]

inductive Step (net : Network ρ τ μ σ) (mode : Mode) : Config ρ τ μ σ → Config ρ τ μ σ → Prop
  | compute {loc channel r outcome s} :
      net.action r (loc r) = .compute outcome → s ∈ outcome →
      Step net mode ⟨loc, channel⟩ ⟨Function.update loc r s, channel⟩
  | post {loc channel r dest tag m next} : mode ≠ .rendezvous →
      net.action r (loc r) = .send dest tag m next →
      Step net mode ⟨loc, channel⟩ ⟨Function.update loc r next,
        Function.update channel (r, dest, tag) (channel (r, dest, tag) ++ [m])⟩
  | receive {loc channel r source tag next m rest} :
      net.action r (loc r) = .recv source tag next → channel (source, r, tag) = m :: rest →
      Step net mode ⟨loc, channel⟩
        ⟨Function.update loc r (next m), Function.update channel (source, r, tag) rest⟩
  | exchange {loc channel r dest tag m next next'} : mode ≠ .buffered →
      net.action r (loc r) = .send dest tag m next →
      net.action dest (loc dest) = .recv r tag next' → channel (r, dest, tag) = [] →
      Step net mode ⟨loc, channel⟩
        ⟨Function.update (Function.update loc r next) dest (next' m), channel⟩

abbrev Reach (net : Network ρ τ μ σ) (mode : Mode) : Config ρ τ μ σ → Config ρ τ μ σ → Prop :=
  ReflTransGen (Step net mode)

def Config.Stopped (net : Network ρ τ μ σ) (c : Config ρ τ μ σ) : Prop :=
  ∀ r, net.action r (c.loc r) = .stop

variable {net : Network ρ τ μ σ} {mode : Mode} {c c' d : Config ρ τ μ σ}

omit [DecidableEq ρ] [DecidableEq τ] in
theorem rank_ne {loc : ρ → σ} {a b : ρ} {x y : Action ρ τ μ σ} (ha : net.action a (loc a) = x)
    (hb : net.action b (loc b) = y) (hxy : x ≠ y) : a ≠ b := by
  rintro rfl
  exact hxy (ha.symm.trans hb)

theorem Config.Stopped.final (h : c.Stopped net) : Final (Step net mode) c := by
  intro d hd
  cases hd with
  | compute ha => simp [h _] at ha
  | post _ ha => simp [h _] at ha
  | receive ha => simp [h _] at ha
  | exchange _ ha => simp [h _] at ha

theorem Step.either (h : Step net mode c d) : Step net .either c d := by
  cases h with
  | compute ha hs => exact .compute ha hs
  | post _ ha => exact .post (by decide) ha
  | receive ha hch => exact .receive ha hch
  | exchange _ ha hb hch => exact .exchange (by decide) ha hb hch

theorem Reach.either (h : Reach net mode c d) : Reach net .either c d :=
  ReflTransGen.mono (fun _ _ => Step.either) _ _ h

/-- A meeting of send and receive has the effect of posting the message and then
receiving it. -/
theorem Step.buffered (h : Step net mode c d) : TransGen (Step net .buffered) c d := by
  cases h with
  | compute ha hs => exact .single (.compute ha hs)
  | post _ ha => exact .single (.post (by decide) ha)
  | receive ha hch => exact .single (.receive ha hch)
  | @exchange loc channel r dest tag m next next' _ ha hb hch =>
    have hne : dest ≠ r := rank_ne hb ha nofun
    have hpost : Step net .buffered ⟨loc, channel⟩ ⟨Function.update loc r next,
        Function.update channel (r, dest, tag) (channel (r, dest, tag) ++ [m])⟩ :=
      .post (by decide) ha
    have hrecv : Step net .buffered
        ⟨Function.update loc r next, Function.update channel (r, dest, tag) [m]⟩
        ⟨Function.update (Function.update loc r next) dest (next' m),
          Function.update (Function.update channel (r, dest, tag) [m]) (r, dest, tag) []⟩ :=
      .receive (by rwa [Function.update_of_ne hne]) (by simp)
    rw [hch, List.nil_append] at hpost
    rw [Function.update_idem, ← hch, Function.update_eq_self] at hrecv
    rw [← hch] at hpost
    exact (TransGen.single hpost).tail hrecv

theorem Reach.buffered (h : Reach net mode c d) : Reach net .buffered c d := by
  induction h with
  | refl => exact .refl
  | tail _ hs ih => exact ih.trans hs.buffered.to_reflTransGen

section Diamond

variable {loc : ρ → σ} {channel : ρ × ρ × τ → List μ}
  {r r' dest dest' source source' : ρ} {tag tag' : τ} {m m' : μ} {s s' next next' : σ}
  {k k' : μ → σ} {rest rest' : List μ} {outcome outcome' : Set σ}

theorem compute_compute
    (ha : net.action r (loc r) = .compute outcome) (hs : s ∈ outcome)
    (hb : net.action r' (loc r') = .compute outcome') (hs' : s' ∈ outcome') :
    Meet (Step net mode) ⟨Function.update loc r s, channel⟩
      ⟨Function.update loc r' s', channel⟩ := by
  by_cases hne : r = r'
  · subst hne
    obtain rfl : outcome = outcome' := by simpa [ha] using hb
    -- two outcomes of one statement come together by assumption on the network
    rcases net.compute_join ha hs hs' with rfl | ⟨X, Y, z, hX, hzX, hY, hzY⟩
    · exact .inl rfl
    · have h₁ : Step net mode ⟨Function.update loc r s, channel⟩
          ⟨Function.update (Function.update loc r s) r z, channel⟩ :=
        .compute (by rwa [Function.update_self]) hzX
      have h₂ : Step net mode ⟨Function.update loc r s', channel⟩
          ⟨Function.update (Function.update loc r s') r z, channel⟩ :=
        .compute (by rwa [Function.update_self]) hzY
      rw [Function.update_idem] at h₁ h₂
      exact .inr ⟨_, h₁, h₂⟩
  · refine .inr ⟨⟨Function.update (Function.update loc r s) r' s', channel⟩,
      .compute (by rwa [Function.update_of_ne (Ne.symm hne)]) hs', ?_⟩
    rw [Function.update_comm hne]
    exact .compute (by rwa [Function.update_of_ne hne]) hs

theorem compute_post (hm : mode ≠ .rendezvous)
    (ha : net.action r (loc r) = .compute outcome) (hs : s ∈ outcome)
    (hb : net.action r' (loc r') = .send dest tag m next) :
    Meet (Step net mode) ⟨Function.update loc r s, channel⟩
      ⟨Function.update loc r' next,
        Function.update channel (r', dest, tag) (channel (r', dest, tag) ++ [m])⟩ := by
  have hne : r ≠ r' := rank_ne ha hb nofun
  refine .inr ⟨⟨Function.update (Function.update loc r s) r' next, _⟩,
    .post hm (by rwa [Function.update_of_ne hne.symm]), ?_⟩
  rw [Function.update_comm hne]
  exact .compute (by rwa [Function.update_of_ne hne]) hs

theorem compute_receive
    (ha : net.action r (loc r) = .compute outcome) (hs : s ∈ outcome)
    (hb : net.action r' (loc r') = .recv source tag k)
    (hch : channel (source, r', tag) = m :: rest) :
    Meet (Step net mode) ⟨Function.update loc r s, channel⟩
      ⟨Function.update loc r' (k m), Function.update channel (source, r', tag) rest⟩ := by
  have hne : r ≠ r' := rank_ne ha hb nofun
  refine .inr ⟨⟨Function.update (Function.update loc r s) r' (k m), _⟩,
    .receive (by rwa [Function.update_of_ne hne.symm]) hch, ?_⟩
  rw [Function.update_comm hne]
  exact .compute (by rwa [Function.update_of_ne hne]) hs

theorem compute_exchange (hm : mode ≠ .buffered)
    (ha : net.action r (loc r) = .compute outcome) (hs : s ∈ outcome)
    (hb : net.action r' (loc r') = .send dest tag m next)
    (hb' : net.action dest (loc dest) = .recv r' tag k)
    (hch : channel (r', dest, tag) = []) :
    Meet (Step net mode) ⟨Function.update loc r s, channel⟩
      ⟨Function.update (Function.update loc r' next) dest (k m), channel⟩ := by
  have hne : r ≠ r' := rank_ne ha hb nofun
  have hne' : r ≠ dest := rank_ne ha hb' nofun
  refine .inr ⟨⟨Function.update (Function.update (Function.update loc r s) r' next) dest (k m),
    channel⟩,
    .exchange hm (by rwa [Function.update_of_ne hne.symm])
      (by rwa [Function.update_of_ne hne'.symm]) hch, ?_⟩
  rw [Function.update_comm hne, Function.update_comm hne']
  exact .compute (by rwa [Function.update_of_ne hne', Function.update_of_ne hne]) hs

theorem post_post (hm : mode ≠ .rendezvous)
    (ha : net.action r (loc r) = .send dest tag m next)
    (hb : net.action r' (loc r') = .send dest' tag' m' next') :
    Meet (Step net mode)
      ⟨Function.update loc r next,
        Function.update channel (r, dest, tag) (channel (r, dest, tag) ++ [m])⟩
      ⟨Function.update loc r' next',
        Function.update channel (r', dest', tag') (channel (r', dest', tag') ++ [m'])⟩ := by
  by_cases hne : r = r'
  · subst hne
    obtain ⟨rfl, rfl, rfl, rfl⟩ : dest = dest' ∧ tag = tag' ∧ m = m' ∧ next = next' := by
      simpa [ha] using hb
    exact .inl rfl
  · -- different senders never share a channel
    have hkey : (r, dest, tag) ≠ (r', dest', tag') := by simp [hne]
    refine .inr ⟨⟨Function.update (Function.update loc r next) r' next', _⟩,
      .post hm (by rwa [Function.update_of_ne (Ne.symm hne)]), ?_⟩
    rw [Function.update_comm hne, Function.update_comm hkey, Function.update_of_ne hkey.symm,
      ← Function.update_of_ne hkey (channel (r', dest', tag') ++ [m']) channel]
    exact .post hm (by rwa [Function.update_of_ne hne])

theorem post_receive (hm : mode ≠ .rendezvous)
    (ha : net.action r (loc r) = .send dest tag m next)
    (hb : net.action r' (loc r') = .recv source tag' k)
    (hch : channel (source, r', tag') = m' :: rest) :
    Meet (Step net mode)
      ⟨Function.update loc r next,
        Function.update channel (r, dest, tag) (channel (r, dest, tag) ++ [m])⟩
      ⟨Function.update loc r' (k m'), Function.update channel (source, r', tag') rest⟩ := by
  have hne : r ≠ r' := rank_ne ha hb nofun
  have hr : net.action r (Function.update loc r' (k m') r) = .send dest tag m next := by
    rwa [Function.update_of_ne hne]
  have hr' : net.action r' (Function.update loc r next r') = .recv source tag' k := by
    rwa [Function.update_of_ne hne.symm]
  have hpost : Step net mode
      ⟨Function.update loc r' (k m'), Function.update channel (source, r', tag') rest⟩
      ⟨Function.update (Function.update loc r' (k m')) r next,
        Function.update (Function.update channel (source, r', tag') rest) (r, dest, tag)
          (Function.update channel (source, r', tag') rest (r, dest, tag) ++ [m])⟩ :=
    .post hm hr
  rw [Function.update_comm hne.symm] at hpost
  refine .inr ⟨_, ?_, hpost⟩
  by_cases hkey : (source, r', tag') = (r, dest, tag)
  · -- the message is appended behind the one that is received
    rw [← hkey, Function.update_self, Function.update_idem]
    have hrecv : Step net mode
        ⟨Function.update loc r next,
          Function.update channel (source, r', tag') (channel (source, r', tag') ++ [m])⟩
        ⟨Function.update (Function.update loc r next) r' (k m'),
          Function.update (Function.update channel (source, r', tag')
            (channel (source, r', tag') ++ [m])) (source, r', tag') (rest ++ [m])⟩ :=
      .receive hr' (by simp [hch])
    rw [Function.update_idem] at hrecv
    exact hrecv
  · rw [Function.update_of_ne (Ne.symm hkey), Function.update_comm hkey]
    exact .receive hr' (by rwa [Function.update_of_ne hkey])

/-- The sender may leave the message in the channel although its receive is posted: the
receive then completes the meeting. -/
theorem post_exchange (hm : mode ≠ .rendezvous) (hm' : mode ≠ .buffered)
    (ha : net.action r (loc r) = .send dest tag m next)
    (hb : net.action r' (loc r') = .send dest' tag' m' next')
    (hb' : net.action dest' (loc dest') = .recv r' tag' k)
    (hch : channel (r', dest', tag') = []) :
    Join (ReflGen (Step net mode))
      ⟨Function.update loc r next,
        Function.update channel (r, dest, tag) (channel (r, dest, tag) ++ [m])⟩
      ⟨Function.update (Function.update loc r' next') dest' (k m'), channel⟩ := by
  have hne' : r ≠ dest' := rank_ne ha hb' nofun
  by_cases hne : r = r'
  · subst hne
    obtain ⟨rfl, rfl, rfl, rfl⟩ : dest = dest' ∧ tag = tag' ∧ m = m' ∧ next = next' := by
      simpa [ha] using hb
    have hrecv : Step net mode
        ⟨Function.update loc r next,
          Function.update channel (r, dest, tag) (channel (r, dest, tag) ++ [m])⟩
        ⟨Function.update (Function.update loc r next) dest (k m),
          Function.update (Function.update channel (r, dest, tag)
            (channel (r, dest, tag) ++ [m])) (r, dest, tag) []⟩ :=
      .receive (by rwa [Function.update_of_ne hne'.symm]) (by simp [hch])
    rw [Function.update_idem] at hrecv
    refine ⟨_, .single hrecv, ?_⟩
    rw [← hch, Function.update_eq_self]
  · have hkey : (r', dest', tag') ≠ (r, dest, tag) := by simp [Ne.symm hne]
    refine ⟨⟨Function.update (Function.update (Function.update loc r next) r' next') dest' (k m'),
      _⟩, .single (.exchange hm' (by rwa [Function.update_of_ne (Ne.symm hne)])
        (by rwa [Function.update_of_ne hne'.symm]) (by rwa [Function.update_of_ne hkey])), ?_⟩
    rw [Function.update_comm hne, Function.update_comm hne']
    exact .single (.post hm (by rwa [Function.update_of_ne hne', Function.update_of_ne hne]))

theorem receive_receive
    (ha : net.action r (loc r) = .recv source tag k)
    (hch : channel (source, r, tag) = m :: rest)
    (hb : net.action r' (loc r') = .recv source' tag' k')
    (hch' : channel (source', r', tag') = m' :: rest') :
    Meet (Step net mode)
      ⟨Function.update loc r (k m), Function.update channel (source, r, tag) rest⟩
      ⟨Function.update loc r' (k' m'), Function.update channel (source', r', tag') rest'⟩ := by
  by_cases hne : r = r'
  · subst hne
    obtain ⟨rfl, rfl, rfl⟩ : source = source' ∧ tag = tag' ∧ k = k' := by simpa [ha] using hb
    obtain ⟨rfl, rfl⟩ : m = m' ∧ rest = rest' := by simpa [hch] using hch'
    exact .inl rfl
  · have hkey : (source, r, tag) ≠ (source', r', tag') := by simp [hne]
    refine .inr ⟨⟨Function.update (Function.update loc r (k m)) r' (k' m'), _⟩,
      .receive (by rwa [Function.update_of_ne (Ne.symm hne)])
        (by rwa [Function.update_of_ne hkey.symm]), ?_⟩
    rw [Function.update_comm hne, Function.update_comm hkey]
    exact .receive (by rwa [Function.update_of_ne hne])
      (by rwa [Function.update_of_ne hkey])

theorem receive_exchange (hm : mode ≠ .buffered)
    (ha : net.action r (loc r) = .recv source tag k)
    (hch : channel (source, r, tag) = m :: rest)
    (hb : net.action r' (loc r') = .send dest' tag' m' next')
    (hb' : net.action dest' (loc dest') = .recv r' tag' k')
    (hch' : channel (r', dest', tag') = []) :
    Meet (Step net mode)
      ⟨Function.update loc r (k m), Function.update channel (source, r, tag) rest⟩
      ⟨Function.update (Function.update loc r' next') dest' (k' m'), channel⟩ := by
  have hne : r ≠ r' := rank_ne ha hb nofun
  have hne' : r ≠ dest' := by
    -- a rank cannot both take a waiting message and meet the sender of a later one
    rintro rfl
    obtain ⟨rfl, rfl, -⟩ : source = r' ∧ tag = tag' ∧ k = k' := by simpa [ha] using hb'
    simp [hch] at hch'
  have hkey : (r', dest', tag') ≠ (source, r, tag) := by simp [hne'.symm]
  refine .inr ⟨⟨Function.update (Function.update (Function.update loc r (k m)) r' next') dest'
    (k' m'), _⟩, .exchange hm (by rwa [Function.update_of_ne hne.symm])
      (by rwa [Function.update_of_ne hne'.symm]) (by rwa [Function.update_of_ne hkey]), ?_⟩
  rw [Function.update_comm hne, Function.update_comm hne']
  exact .receive (by rwa [Function.update_of_ne hne', Function.update_of_ne hne]) hch

theorem exchange_exchange (hm : mode ≠ .buffered)
    (ha : net.action r (loc r) = .send dest tag m next)
    (ha' : net.action dest (loc dest) = .recv r tag k) (hch : channel (r, dest, tag) = [])
    (hb : net.action r' (loc r') = .send dest' tag' m' next')
    (hb' : net.action dest' (loc dest') = .recv r' tag' k')
    (hch' : channel (r', dest', tag') = []) :
    Meet (Step net mode)
      ⟨Function.update (Function.update loc r next) dest (k m), channel⟩
      ⟨Function.update (Function.update loc r' next') dest' (k' m'), channel⟩ := by
  have h₁ : r ≠ dest' := rank_ne ha hb' nofun
  have h₂ : dest ≠ r' := rank_ne ha' hb nofun
  by_cases hne : r = r'
  · subst hne
    obtain ⟨rfl, rfl, rfl, rfl⟩ : dest = dest' ∧ tag = tag' ∧ m = m' ∧ next = next' := by
      simpa [ha] using hb
    obtain rfl : k = k' := by simpa [ha'] using hb'
    exact .inl rfl
  · -- a receive names its sender, so that two meetings of different senders are disjoint
    have h₃ : dest ≠ dest' := by
      rintro rfl
      obtain ⟨h, -⟩ : r = r' ∧ tag = tag' ∧ k = k' := by simpa [ha'] using hb'
      exact hne h
    refine .inr ⟨⟨Function.update (Function.update (Function.update (Function.update loc r next)
      dest (k m)) r' next') dest' (k' m'), channel⟩,
      .exchange hm
        (by rwa [Function.update_of_ne h₂.symm, Function.update_of_ne (Ne.symm hne)])
        (by rwa [Function.update_of_ne h₃.symm, Function.update_of_ne h₁.symm]) hch', ?_⟩
    rw [Function.update_comm h₂, Function.update_comm hne, Function.update_comm h₃,
      Function.update_comm h₁]
    exact .exchange hm (by rwa [Function.update_of_ne h₁, Function.update_of_ne hne])
      (by rwa [Function.update_of_ne h₃, Function.update_of_ne h₂]) hch

end Diamond

/-- Two steps from one state take one further step each, unless one leaves the message in the
channel and the other meets its receive. -/
theorem meet_or_join (hb : Step net mode c d) (hc : Step net mode c c') :
    Meet (Step net mode) d c' ∨ mode = .either ∧ Join (ReflGen (Step net mode)) d c' := by
  have heither : mode ≠ .rendezvous → mode ≠ .buffered → mode = .either := by
    cases mode <;> simp
  cases hb with
  | compute ha hs =>
    cases hc with
    | compute ha' hs' => exact .inl (compute_compute ha hs ha' hs')
    | post hm ha' => exact .inl (compute_post hm ha hs ha')
    | receive ha' hch => exact .inl (compute_receive ha hs ha' hch)
    | exchange hm ha' hb' hch => exact .inl (compute_exchange hm ha hs ha' hb' hch)
  | post hm ha =>
    cases hc with
    | compute ha' hs' => exact .inl (compute_post hm ha' hs' ha).symm
    | post _ ha' => exact .inl (post_post hm ha ha')
    | receive ha' hch => exact .inl (post_receive hm ha ha' hch)
    | exchange hm' ha' hb' hch => exact .inr ⟨heither hm hm', post_exchange hm hm' ha ha' hb' hch⟩
  | receive ha hch =>
    cases hc with
    | compute ha' hs' => exact .inl (compute_receive ha' hs' ha hch).symm
    | post hm ha' => exact .inl (post_receive hm ha' ha hch).symm
    | receive ha' hch' => exact .inl (receive_receive ha hch ha' hch')
    | exchange hm ha' hb' hch' => exact .inl (receive_exchange hm ha hch ha' hb' hch')
  | exchange hm ha hb' hch =>
    cases hc with
    | compute ha' hs' => exact .inl (compute_exchange hm ha' hs' ha hb' hch).symm
    | post hm' ha' =>
      exact .inr ⟨heither hm' hm, join_symm (post_exchange hm' hm ha' ha hb' hch)⟩
    | receive ha' hch' => exact .inl (receive_exchange hm ha' hch' ha hb' hch).symm
    | exchange _ ha' hc' hch' => exact .inl (exchange_exchange hm ha hb' hch ha' hc' hch')

/-- Whatever the send mode, two steps of the network never exclude each other. -/
theorem step_diamond (net : Network ρ τ μ σ) (mode : Mode) : Diamond (Step net mode) := by
  intro a b c hb hc
  rcases meet_or_join hb hc with h | ⟨-, h⟩
  · exact h.join
  · exact h

theorem step_meet (net : Network ρ τ μ σ) (h : mode ≠ .either) :
    StrictDiamond (Step net mode) := by
  intro a b c hb hc
  exact (meet_or_join hb hc).resolve_right fun hjoin => h hjoin.1

theorem Network.Advances.step {R : ρ → σ → σ → Prop} (h : net.Advances R)
    (hs : Step net mode c d) (r : ρ) : R r (c.loc r) (d.loc r) := by
  cases hs with
  | compute ha hs => exact h.update (h.compute ha hs) r
  | post _ ha => exact h.update (h.send ha) r
  | receive ha _ => exact h.update (h.recv ha _) r
  | @exchange loc channel a dest tag m next next' _ ha hb _ =>
    have hne : dest ≠ a := rank_ne hb ha nofun
    refine h.trans (h.update (h.send ha) r) (h.update ?_ r)
    rw [Function.update_of_ne hne]
    exact h.recv hb m

theorem Network.Advances.reach {R : ρ → σ → σ → Prop} (h : net.Advances R)
    (hc : Reach net mode c d) (r : ρ) : R r (c.loc r) (d.loc r) := by
  induction hc with
  | refl => exact h.refl r _
  | tail _ hs ih => exact h.trans ih (h.step hs r)

def quiet (loc : ρ → σ) : Config ρ τ μ σ := ⟨loc, fun _ => []⟩

theorem quiet_compute {loc : ρ → σ} {r : ρ} {s : σ} (h : net.action r (loc r) = .compute {s}) :
    Step net .rendezvous (quiet loc) (quiet (Function.update loc r s)) :=
  .compute h rfl

/-- Ranks `a` and `b`, in the states of the pair, exchange one message. -/
inductive Session (net : Network ρ τ μ σ) (a b : ρ) : σ × σ → σ × σ → Prop
  | forth {x y x' y' tag m k} : net.action a x = .send b tag m x' →
      net.action b y = .recv a tag k → k m = y' → Session net a b (x, y) (x', y')
  | back {x y x' y' tag m k} : net.action b y = .send a tag m y' →
      net.action a x = .recv b tag k → k m = x' → Session net a b (x, y) (x', y')

theorem pair_update {a b : ρ} (hne : a ≠ b) (loc : ρ → σ) (x y x' y' : σ) :
    Function.update (Function.update (Function.update (Function.update loc a x) b y) a x') b y' =
      Function.update (Function.update loc a x') b y' := by
  rw [Function.update_comm hne.symm, Function.update_idem, Function.update_idem]

/-- The states of all ranks are known from those of two and of the others. -/
theorem update_pair_eq {a b : ρ} {loc loc' : ρ → σ} {x y : σ} (ha : loc' a = x) (hb : loc' b = y)
    (hother : ∀ r, r ≠ a → r ≠ b → loc' r = loc r) :
    Function.update (Function.update loc a x) b y = loc' := by
  funext r
  by_cases hrb : r = b
  · rw [hrb, Function.update_self, hb]
  · by_cases hra : r = a
    · rw [Function.update_of_ne hrb, hra, Function.update_self, ha]
    · rw [Function.update_of_ne hrb, Function.update_of_ne hra, hother r hra hrb]

theorem Session.step {a b : ρ} (hne : a ≠ b) (loc : ρ → σ) {p q : σ × σ}
    (h : Session net a b p q) :
    Step net .rendezvous (quiet (Function.update (Function.update loc a p.1) b p.2))
      (quiet (Function.update (Function.update loc a q.1) b q.2)) := by
  have hmode : Mode.rendezvous ≠ .buffered := by decide
  cases h with
  | @forth x y x' y' tag m k hx hy hk =>
    have ha : net.action a (Function.update (Function.update loc a x) b y a) =
        .send b tag m x' := by
      rwa [Function.update_of_ne hne, Function.update_self]
    have hb : net.action b (Function.update (Function.update loc a x) b y b) = .recv a tag k := by
      rwa [Function.update_self]
    show Step net _ ⟨_, _⟩ ⟨Function.update (Function.update loc a x') b y', _⟩
    rw [← pair_update hne loc x y x' y', ← hk]
    exact .exchange hmode ha hb rfl
  | @back x y x' y' tag m k hy hx hk =>
    have ha : net.action a (Function.update (Function.update loc a x) b y a) = .recv b tag k := by
      rwa [Function.update_of_ne hne, Function.update_self]
    have hb : net.action b (Function.update (Function.update loc a x) b y b) =
        .send a tag m y' := by
      rwa [Function.update_self]
    have hswap := Function.update_comm hne.symm y' x'
      (Function.update (Function.update loc a x) b y)
    show Step net _ ⟨_, _⟩ ⟨Function.update (Function.update loc a x') b y', _⟩
    rw [← pair_update hne loc x y x' y', ← hswap, ← hk]
    exact .exchange hmode hb ha rfl

/-- A conversation of two ranks is a run of the network, whatever the others do. -/
theorem reach_of_session {a b : ρ} (hne : a ≠ b) (loc : ρ → σ) {p q : σ × σ}
    (h : ReflTransGen (Session net a b) p q) :
    Reach net .rendezvous (quiet (Function.update (Function.update loc a p.1) b p.2))
      (quiet (Function.update (Function.update loc a q.1) b q.2)) := by
  induction h with
  | refl => exact .refl
  | tail _ hs ih => exact ih.tail (hs.step hne loc)

/-- A run in which every send meets its receive is a run under each mode. -/
theorem Reach.of_rendezvous (h : Reach net .rendezvous c d) (mode : Mode) : Reach net mode c d := by
  cases mode with
  | buffered => exact h.buffered
  | rendezvous => exact h
  | either => exact h.either

theorem Reach.completes (hf : d.Stopped net) (hrun : Reach net .rendezvous c d)
    (h : Reach net mode c c') : Reach net mode c' d :=
  (step_diamond net mode).reach_final hf.final (hrun.of_rendezvous mode) h

/-- No deadlock: a state other than the end of the complete run has a step. -/
theorem Reach.progress (hf : d.Stopped net) (hrun : Reach net .rendezvous c d)
    (h : Reach net mode c c') : c' = d ∨ ∃ e, Step net mode c' e :=
  (step_diamond net mode).progress hf.final (hrun.of_rendezvous mode) h

theorem Reach.terminates (hf : d.Stopped net) (hrun : Reach net .rendezvous c d) (mode : Mode) :
    Acc (fun x y => Step net mode y x) c := by
  have hacc : Acc (fun x y => Step net .buffered y x) c :=
    (step_meet net (by decide)).acc_of_reach hf.final (hrun.of_rendezvous .buffered)
  refine Subrelation.accessible (fun {x y} h => ?_) hacc.transGen
  exact transGen_swap.mp h.buffered

end ParallelPrograms
