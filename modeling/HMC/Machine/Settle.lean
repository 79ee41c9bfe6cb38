import HMC.Machine.Run

/-!
# Machines whose runs all end alike

A machine that several components drive is *determinate* when the order in which they move makes
no difference to where it ends. `Settles step s f` says so of one state: every run from `s` is
finite and can be continued to `f`, where nothing can move any more.

For a machine in which two different moves always commute, one finished run is enough
(`Settles.of_exec`): by the diamond every other run has the same length and the same end. A coarser
machine, whose moves are runs of the commuting one, settles with it (`Settles.of_coarse`).

This is how the results about byte streams avoid a case analysis over interleavings. The machine
that moves one byte at a time commutes, because different parties touch different ends of a queue;
a run of it is exhibited in the most convenient order; and the socket, which moves any number of
bytes at once, is a coarser machine of it.
-/

namespace HMC.Machine

variable {σ α β : Type*} {step : σ → α → Option σ} {big : σ → β → Option σ} {s t u f : σ}

/-- Every run from `s` is finite and can be continued to `f`, where it ends. In particular a state
that nothing can move is `f` itself (`Settles.eq_of_final`), and no run avoids it for ever. -/
structure Settles (step : σ → α → Option σ) (s f : σ) : Prop where
  final : ∀ a, step f a = none
  leads : ∀ t, Reach step Free s t → Reach step Free t f
  bounded : ∃ n, ∀ as t, exec step s as = some t → as.length ≤ n

/-- Two different moves commute. -/
def Commutes (step : σ → α → Option σ) : Prop :=
  ∀ s a b t u, a ≠ b → step s a = some t → step s b = some u →
    ∃ v, step t b = some v ∧ step u a = some v

theorem exec_cons {a : α} {as : List α} :
    exec step s (a :: as) = some t ↔ ∃ u, step s a = some u ∧ exec step u as = some t :=
  Option.bind_eq_some_iff

theorem exec_append {as bs : List α} :
    exec step s (as ++ bs) = some t ↔ ∃ u, exec step s as = some u ∧ exec step u bs = some t := by
  induction as generalizing s with
  | nil => simp [exec]
  | cons a as ih =>
    rw [List.cons_append, exec_cons]
    constructor
    · rintro ⟨v, hv, hrest⟩
      obtain ⟨u, hu, hbs⟩ := ih.mp hrest
      exact ⟨u, exec_cons.mpr ⟨v, hv, hu⟩, hbs⟩
    · rintro ⟨u, hu, hbs⟩
      obtain ⟨v, hv, hrest⟩ := exec_cons.mp hu
      exact ⟨v, hv, ih.mpr ⟨u, hrest, hbs⟩⟩

/-- A run is a list of actions. -/
theorem Reach.exists_exec (h : Reach step Free s t) : ∃ as, exec step s as = some t := by
  induction h with
  | refl => exact ⟨[], rfl⟩
  | tail _ _ hst ih =>
    obtain ⟨as, has⟩ := ih
    exact ⟨as ++ [_], exec_append.mpr ⟨_, has, exec_cons.mpr ⟨_, hst, rfl⟩⟩⟩

namespace Commutes

variable {as bs : List α}

/-- **The diamond.** A run that ends can be started with any move that is enabled. By induction on
the run: the enabled move is the run's first one, or it commutes with that and is enabled after
it. -/
theorem exec_move (hc : Commutes step) (hf : ∀ a, step f a = none)
    (h : exec step s as = some f) {a : α} (ha : step s a = some t) :
    ∃ bs, exec step t bs = some f ∧ bs.length + 1 = as.length := by
  induction as generalizing s t with
  | nil =>
    obtain rfl := Option.some.inj h
    rw [hf a] at ha
    cases ha
  | cons b bs ih =>
    obtain ⟨u, hu, hrest⟩ := exec_cons.mp h
    by_cases hab : a = b
    · subst hab
      obtain rfl := Option.some.inj (hu.symm.trans ha)
      exact ⟨bs, hrest, rfl⟩
    · -- the move is still enabled after `b`, and `b` after it
      obtain ⟨v, hbv, hav⟩ := hc s a b t u hab ha hu
      obtain ⟨cs, hcs, hlen⟩ := ih hrest hav
      exact ⟨b :: cs, exec_cons.mpr ⟨v, hbv, hcs⟩, by rw [List.length_cons, hlen, List.length_cons]⟩

/-- A run that ends can be started with any other run. -/
theorem exec_rest (hc : Commutes step) (hf : ∀ a, step f a = none)
    (h : exec step s as = some f) (ht : exec step s bs = some t) :
    ∃ cs, exec step t cs = some f ∧ cs.length + bs.length = as.length := by
  induction bs generalizing s as with
  | nil =>
    obtain rfl := Option.some.inj ht
    exact ⟨as, h, rfl⟩
  | cons b bs ih =>
    obtain ⟨u, hu, hrest⟩ := exec_cons.mp ht
    obtain ⟨as', has', hlen⟩ := hc.exec_move hf h hu
    obtain ⟨cs, hcs, hlen'⟩ := ih has' hrest
    exact ⟨cs, hcs, by rw [List.length_cons]; omega⟩

end Commutes

/-! ### Coarse machines -/

/-- A coarse move is a nonempty run of the fine machine, and a fine move is a coarse one. -/
structure Coarsens (step : σ → α → Option σ) (big : σ → β → Option σ) : Prop where
  split : ∀ s b t, big s b = some t → ∃ a as, exec step s (a :: as) = some t
  single : ∀ s a t, step s a = some t → ∃ b, big s b = some t

theorem Coarsens.exec (h : Coarsens step big) {bs : List β} (ht : exec big s bs = some t) :
    ∃ as, Machine.exec step s as = some t ∧ bs.length ≤ as.length := by
  induction bs generalizing s with
  | nil => exact ⟨[], ht, Nat.le_refl _⟩
  | cons b bs ih =>
    obtain ⟨u, hu, hrest⟩ := exec_cons.mp ht
    obtain ⟨a, as, has⟩ := h.split s b u hu
    obtain ⟨as', has', hlen⟩ := ih hrest
    refine ⟨(a :: as) ++ as', exec_append.mpr ⟨u, has, has'⟩, ?_⟩
    simp only [List.length_append, List.length_cons]
    omega

theorem Coarsens.reach (h : Coarsens step big) (ht : Reach step Free s t) :
    Reach big Free s t := by
  induction ht with
  | refl => exact .refl
  | tail _ _ hst ih =>
    obtain ⟨b, hb⟩ := h.single _ _ _ hst
    exact ih.tail trivial hb

/-! ### Settling -/

namespace Settles

/-- Where a run has ended, it has ended in `f`. -/
theorem eq_of_final (h : Settles step s f) (ht : Reach step Free s t) (hn : ∀ a, step t a = none) :
    t = f := by
  obtain ⟨as, has⟩ := (h.leads t ht).exists_exec
  cases as with
  | nil => exact Option.some.inj has
  | cons a as =>
    obtain ⟨u, hu, -⟩ := exec_cons.mp has
    rw [hn a] at hu
    cases hu

/-- In a machine of commuting moves one run that ends decides. -/
theorem of_exec (hc : Commutes step) (hf : ∀ a, step f a = none) {as : List α}
    (h : exec step s as = some f) : Settles step s f where
  final := hf
  leads t ht := by
    obtain ⟨bs, hbs⟩ := ht.exists_exec
    obtain ⟨cs, hcs, -⟩ := hc.exec_rest hf h hbs
    exact .of_exec hcs
  bounded := by
    refine ⟨as.length, fun bs t ht => ?_⟩
    obtain ⟨cs, -, hlen⟩ := hc.exec_rest hf h ht
    omega

/-- The coarse machine ends where the fine one does. -/
theorem of_coarse (hco : Coarsens step big) (h : Settles step s f) : Settles big s f where
  final b := by
    cases hb : big f b with
    | none => rfl
    | some t =>
      obtain ⟨a, as, has⟩ := hco.split f b t hb
      obtain ⟨u, hu, -⟩ := exec_cons.mp has
      rw [h.final a] at hu
      cases hu
  leads t ht := by
    obtain ⟨bs, hbs⟩ := ht.exists_exec
    obtain ⟨as, has, -⟩ := hco.exec hbs
    exact hco.reach (h.leads t (.of_exec has))
  bounded := by
    obtain ⟨n, hn⟩ := h.bounded
    refine ⟨n, fun bs t ht => ?_⟩
    obtain ⟨as, has, hlen⟩ := hco.exec ht
    have := hn as t has
    omega

end Settles

end HMC.Machine
