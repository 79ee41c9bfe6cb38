import HMC.Machine.Setup
import Mathlib.Logic.Equiv.Basic

/-!
# Several records in one ledger

To a record that owns its resources, all others are the others'. Here a ledger has a family of
records, and each of them can be looked at as one that owns its part (`Shares.owns`).

What is built in a ledger is made from what was made since, or from resources that were given
(`Since`). A record that is complete therefore joins a family without a change to the other records
(`Shares.add`), and one that has released everything leaves it (`Shares.remove`).

The results about single records (`Owns`) are then used as they are: a member of the family works in
the ledger as if everything that it does not hold belonged to others (`Ledger.without`), and what it
does there keeps the part of each other member. Resources that belong to no record are made
and released beside the family (`Shares.make_other`, `Shares.release_other`).
-/

namespace HMC.Machine

variable {ι : Type*}

namespace Ledger

variable {L : Ledger ι} {i : ι} {needs : List ℕ} {g h : ℕ}

@[simp] theorem live_make_self : (L.make i needs).live L.next =
    some ⟨i, needs.filter fun n => (L.live n).isSome⟩ := Function.update_self ..

theorem live_make_of_ne (hg : g ≠ L.next) : (L.make i needs).live g = L.live g :=
  Function.update_of_ne hg _ _

@[simp] theorem live_release_self : (L.release h).live h = none := Function.update_self ..

theorem live_release_of_ne (hg : g ≠ h) : (L.release h).live g = L.live g :=
  Function.update_of_ne hg _ _

end Ledger

/-! ### What is built in a ledger -/

/-- The record was built in a ledger with `b` handles: it points to newer resources, and these were
made from newer resources or from those that were given. -/
structure Since (b : ℕ) (given : ℕ → Prop) (x : Holder ι) : Prop where
  ptr : ∀ i h, x.ptr i = some h → b ≤ h
  next : b ≤ x.ledger.next
  needs : ∀ h r, b ≤ h → x.ledger.live h = some r → ∀ n ∈ r.needs, b ≤ n ∨ given n

namespace Since

variable {b : ℕ} {given : ℕ → Prop} {x : Holder ι} {i : ι}

theorem nothing (L : Ledger ι) : Since L.next given (⟨L, fun _ => none⟩ : Holder ι) where
  ptr _ _ h := by cases h
  next := Nat.le_refl _
  needs h r hh hr := by
    have hnone : L.live h = none := L.fresh h hh
    rw [hnone] at hr
    cases hr

variable [DecidableEq ι] {uses : ι → List ι}

theorem adopt (L : Ledger ι) {needs : List ℕ} (h : ∀ n ∈ needs, given n) :
    Since L.next given
      ⟨L.make i needs, Function.update (fun _ => none) i (some L.next)⟩ where
  ptr j g hj := by
    simp only [Function.update_apply] at hj
    split_ifs at hj
    exact Nat.le_of_eq (Option.some.inj hj)
  next := Nat.le_succ _
  needs g r hg hr n hn := by
    refine .inr (h n ?_)
    by_cases hgn : g = L.next
    · subst hgn
      obtain rfl := Option.some.inj (Ledger.live_make_self.symm.trans hr)
      exact (List.mem_filter.mp hn).1
    · have hnone : (L.make i needs).live g = none :=
        (Ledger.live_make_of_ne hgn).trans (L.fresh g hg)
      cases hnone.symm.trans hr

theorem make (h : Since b given x) (i : ι) : Since b given (x.make uses i) where
  ptr j g hj := by
    simp only [Holder.make, Function.update_apply] at hj
    split_ifs at hj
    · exact Option.some.inj hj ▸ h.next
    · exact h.ptr j g hj
  next := Nat.le_succ_of_le h.next
  needs g r hg hr n hn := by
    by_cases hgn : g = x.ledger.next
    · subst hgn
      obtain rfl := Option.some.inj (Ledger.live_make_self.symm.trans hr)
      obtain ⟨j, -, hj⟩ := List.mem_filterMap.mp (List.mem_filter.mp hn).1
      exact .inl (h.ptr j n hj)
    · exact h.needs g r hg ((Ledger.live_make_of_ne hgn).symm.trans hr) n hn

theorem destroy (h : Since b given x) (i : ι) : Since b given (x.destroy i) := by
  refine ⟨fun j g hj => ?_, ?_, fun g r hg hr n hn => ?_⟩
  · rw [Holder.destroy_ptr, Function.update_apply] at hj
    split_ifs at hj
    exact h.ptr j g hj
  · unfold Holder.destroy
    split <;> exact h.next
  · unfold Holder.destroy at hr
    split at hr
    · exact h.needs g r hg hr n hn
    · rename_i k _
      by_cases hgk : g = k
      · subst hgk
        cases Ledger.live_release_self.symm.trans hr
      · exact h.needs g r hg ((Ledger.live_release_of_ne hgk).symm.trans hr) n hn

theorem destroyAll (h : Since b given x) (is : List ι) : Since b given (x.destroyAll is) := by
  induction is generalizing x with
  | nil => exact h
  | cons i is ih => exact ih (h.destroy i)

theorem run {γ ε : Type*} {a : Answers ι γ} {ops : List (SetupOp ι γ ε)} (h : Since b given x) :
    Since b given (SetupOp.run uses a ops x).2 := by
  induction ops generalizing x with
  | nil => exact h
  | cons op ops ih =>
    have hop : Since b given (op.exec uses a x) := by
      rcases op with _ | _ | _
      · simp only [SetupOp.exec]
        split_ifs
        · exact h.make _
        · exact h
      · simp only [SetupOp.exec]
        split_ifs
        · exact (h.make _).destroy _
        · exact h
      · exact h
    simp only [SetupOp.run]
    split_ifs
    · exact ih hop
    · exact hop

omit [DecidableEq ι] in
/-- What is in the ledger now was there before, or was made from newer resources. -/
theorem live_or {L : Ledger ι} (h : Since L.next given x) (hown : Owns uses L.live x) {g : ℕ}
    {r : Resource ι} (hr : x.ledger.live g = some r) :
    L.live g = some r ∨ ∀ n ∈ r.needs, L.next ≤ n ∨ given n := by
  by_cases hg : L.next ≤ g
  · exact .inr (h.needs g r hg hr)
  · refine .inl ((hown.rest g fun i hi => ?_).symm.trans hr)
    exact hg (h.ptr i g hi)

end Since

/-! ### Families of records -/

open scoped Classical in
/-- The resources of the ledger but those of a record. -/
noncomputable def Ledger.without (L : Ledger ι) (p : ι → Option ℕ) (h : ℕ) :
    Option (Resource ι) :=
  if ∃ i, p i = some h then none else L.live h

theorem Ledger.without_of_held {L : Ledger ι} {p : ι → Option ℕ} {i : ι} {h : ℕ}
    (hi : p i = some h) : L.without p h = none := if_pos ⟨i, hi⟩

theorem Ledger.without_of_not_held {L : Ledger ι} {p : ι → Option ℕ} {h : ℕ}
    (hp : ∀ i, p i ≠ some h) : L.without p h = L.live h := if_neg fun ⟨i, hi⟩ => hp i hi

theorem Ledger.live_of_without {L : Ledger ι} {p : ι → Option ℕ} {h : ℕ} {r : Resource ι}
    (hr : L.without p h = some r) : L.live h = some r := by
  by_cases hp : ∃ i, p i = some h
  · obtain ⟨i, hi⟩ := hp
    rw [Ledger.without_of_held hi] at hr
    cases hr
  · rwa [Ledger.without_of_not_held fun i hi => hp ⟨i, hi⟩] at hr

variable {κ : Type*} (uses : ι → List ι)

/-- The records point to all resources of the ledger but `others`, each to its own (`inj`, `rest`),
and what a record holds was made only from what the same record holds, or from resources of nobody
(`held`); no resource of the others was made from what a record holds (`added`). -/
structure Shares (others : ℕ → Option (Resource ι)) (L : Ledger ι) (p : κ → ι → Option ℕ) :
    Prop where
  inj {k l : κ} {i j : ι} {h : ℕ} : p k i = some h → p l j = some h → k = l ∧ i = j
  added {k : κ} {i : ι} {h : ℕ} : p k i = some h →
    others h = none ∧ ∀ g r, others g = some r → h ∉ r.needs
  held {k : κ} {i : ι} {h : ℕ} : p k i = some h → ∃ r, L.live h = some r ∧ r.label = i ∧
    ∀ l j n, p l j = some n → (n ∈ r.needs ↔ l = k ∧ j ∈ uses i)
  rest {h : ℕ} : (∀ k i, p k i ≠ some h) → L.live h = others h

namespace Shares

variable {uses} {others : ℕ → Option (Resource ι)} {L : Ledger ι} {p : κ → ι → Option ℕ} {k : κ}
  {i : ι} {h : ℕ}

theorem nothing (hnone : ∀ k i, p k i = none) : Shares uses L.live L p where
  inj {k _ i _ _} hi _ := by
    rw [hnone] at hi
    cases hi
  added {k i _} hi := by
    rw [hnone] at hi
    cases hi
  held {k i _} hi := by
    rw [hnone] at hi
    cases hi
  rest _ := rfl

theorem live (h : Shares uses others L p) {g : ℕ} (hi : p k i = some g) : (L.live g).isSome := by
  obtain ⟨r, hr, -⟩ := h.held hi
  simp [hr]

/-- The others are in the ledger. -/
theorem live_of_others (h : Shares uses others L p) {g : ℕ} {r : Resource ι}
    (hr : others g = some r) : L.live g = some r := by
  rw [← hr]
  refine h.rest fun k i hi => ?_
  rw [(h.added hi).1] at hr
  cases hr

theorem of_live (h : Shares uses others L p) {L' : Ledger ι} (hlive : L'.live = L.live) :
    Shares uses others L' p := by
  refine ⟨h.inj, h.added, fun hi => ?_, fun hg => ?_⟩
  · rw [hlive]
    exact h.held hi
  · rw [hlive]
    exact h.rest hg

/-- The records change places. -/
theorem comp {κ' : Type*} (h : Shares uses others L p) (f : κ' ≃ κ) :
    Shares uses others L fun k => p (f k) := by
  refine ⟨fun hi hj => ?_, fun hi => h.added hi, fun {k i g} hi => ?_, fun hg => h.rest ?_⟩
  · obtain ⟨hkl, hij⟩ := h.inj hi hj
    exact ⟨f.injective hkl, hij⟩
  · obtain ⟨r, hr, hlabel, hneeds⟩ := h.held hi
    refine ⟨r, hr, hlabel, fun l j n hj => ?_⟩
    rw [hneeds (f l) j n hj, f.injective.eq_iff]
  · intro k i
    have hk := hg (f.symm k) i
    rwa [f.apply_symm_apply] at hk

/-- **One record of a family** owns its part. -/
theorem owns (h : Shares uses others L p) (k : κ) : Owns uses (L.without (p k)) ⟨L, p k⟩ where
  inj _ _ _ hi hj := (h.inj hi hj).2
  added i g hi := by
    refine ⟨Ledger.lt_of_live (h.live hi), Ledger.without_of_held hi, fun g' r hr hn => ?_⟩
    by_cases hown : ∃ j, p k j = some g'
    · obtain ⟨j, hj⟩ := hown
      rw [Ledger.without_of_held hj] at hr
      cases hr
    · rw [Ledger.without_of_not_held fun j hj => hown ⟨j, hj⟩] at hr
      by_cases hheld : ∃ l j, p l j = some g'
      · -- it is in another record, and was not made from this one
        obtain ⟨l, j, hj⟩ := hheld
        obtain ⟨r', hr', -, hneeds⟩ := h.held hj
        obtain rfl := Option.some.inj (hr.symm.trans hr')
        obtain ⟨rfl, -⟩ := (hneeds k i g hi).mp hn
        exact hown ⟨j, hj⟩
      · rw [h.rest fun l j hj => hheld ⟨l, j, hj⟩] at hr
        exact (h.added hi).2 g' r hr hn
  held i g hi := by
    obtain ⟨r, hr, hlabel, hneeds⟩ := h.held hi
    refine ⟨r, hr, hlabel, fun j n hj => ?_⟩
    rw [hneeds k j n hj]
    exact and_iff_right rfl
  rest g hg := (Ledger.without_of_not_held hg).symm

variable [DecidableEq κ] {L' : Ledger ι}

/-- **A record leaves** when all of its resources are gone. -/
theorem remove (h : Shares uses others L p) (hlive : L'.live = L.without (p k)) :
    Shares uses others L' (Function.update p k fun _ => none) := by
  have hptr : ∀ l i g, Function.update p k (fun _ => none) l i = some g →
      l ≠ k ∧ p l i = some g := by
    intro l i g hi
    by_cases hl : l = k
    · rw [hl, Function.update_self] at hi
      cases hi
    · rw [Function.update_of_ne hl] at hi
      exact ⟨hl, hi⟩
  constructor
  · intro l m i j g hi hj
    exact h.inj (hptr l i g hi).2 (hptr m j g hj).2
  · intro l i g hi
    exact h.added (hptr l i g hi).2
  · intro l i g hi
    obtain ⟨hl, hi⟩ := hptr l i g hi
    obtain ⟨r, hr, hlabel, hneeds⟩ := h.held hi
    refine ⟨r, ?_, hlabel, fun m j n hj => hneeds m j n (hptr m j n hj).2⟩
    rw [hlive, ← hr]
    exact Ledger.without_of_not_held fun j hj => hl (h.inj hi hj).1
  · intro g hg
    by_cases hheld : ∃ i, p k i = some g
    · obtain ⟨i, hi⟩ := hheld
      rw [hlive, Ledger.without_of_held hi, (h.added hi).1]
    · have hnot : ∀ i, p k i ≠ some g := fun i hi => hheld ⟨i, hi⟩
      rw [hlive, Ledger.without_of_not_held hnot]
      refine h.rest fun l i hi => ?_
      by_cases hl : l = k
      · exact hnot i (hl ▸ hi)
      · exact hg l i (by rw [Function.update_of_ne hl, hi])

/-- **A record joins.** It was built in the ledger, from nothing that the others hold. -/
theorem add {given : ℕ → Prop} {x : Holder ι} (h : Shares uses others L p)
    (hfree : ∀ i, p k i = none) (hown : Owns uses L.live x) (hsince : Since L.next given x)
    (hgiven : ∀ l i g, p l i = some g → ¬ given g) :
    Shares uses others x.ledger (Function.update p k x.ptr) := by
  have hptr : ∀ l i g, Function.update p k x.ptr l i = some g →
      l = k ∧ x.ptr i = some g ∨ l ≠ k ∧ p l i = some g := by
    intro l i g hi
    by_cases hl : l = k
    · rw [hl, Function.update_self] at hi
      exact .inl ⟨hl, hi⟩
    · rw [Function.update_of_ne hl] at hi
      exact .inr ⟨hl, hi⟩
  -- what the record holds is new
  have hnew : ∀ i g, x.ptr i = some g → L.live g = none := fun i g hi => (hown.added i g hi).2.1
  have hold : ∀ l i g, p l i = some g → ∀ j, x.ptr j ≠ some g := by
    intro l i g hi j hj
    have hlive := h.live hi
    rw [hnew j g hj] at hlive
    cases hlive
  constructor
  · intro l m i j g hi hj
    rcases hptr l i g hi with ⟨hl, hi⟩ | ⟨-, hi⟩ <;> rcases hptr m j g hj with ⟨hm, hj⟩ | ⟨-, hj⟩
    · exact ⟨hl.trans hm.symm, hown.inj i j g hi hj⟩
    · exact absurd hi (hold m j g hj i)
    · exact absurd hj (hold l i g hi j)
    · exact h.inj hi hj
  · intro l i g hi
    rcases hptr l i g hi with ⟨-, hi⟩ | ⟨-, hi⟩
    · refine ⟨?_, fun g' r hr => (hown.added i g hi).2.2 g' r (h.live_of_others hr)⟩
      rw [← h.rest fun l j hj => hold l j g hj i hi]
      exact hnew i g hi
    · exact h.added hi
  · intro l i g hi
    rcases hptr l i g hi with ⟨hl, hx⟩ | ⟨hl, hi⟩
    · obtain ⟨r, hr, hlabel, hneeds⟩ := hown.held i g hx
      refine ⟨r, hr, hlabel, fun m j n hj => ?_⟩
      rcases hptr m j n hj with ⟨hm, hj⟩ | ⟨hm, hj⟩
      · rw [hneeds j n hj]
        exact (and_iff_right (hm.trans hl.symm)).symm
      · refine iff_of_false (fun hn => ?_) fun hml => hm (hml.1.trans hl)
        rcases hsince.needs g r (hsince.ptr i g hx) hr n hn with hle | hn
        · exact absurd (Ledger.lt_of_live (h.live hj)) (Nat.not_lt.mpr hle)
        · exact hgiven m j n hj hn
    · obtain ⟨r, hr, hlabel, hneeds⟩ := h.held hi
      refine ⟨r, (hown.rest g (hold l i g hi)).trans hr, hlabel, fun m j n hj => ?_⟩
      rcases hptr m j n hj with ⟨hm, hj⟩ | ⟨-, hj⟩
      · refine iff_of_false ((hown.added j n hj).2.2 g r hr) fun hml => hl ?_
        rw [← hml.1, hm]
      · exact hneeds m j n hj
  · intro g hg
    have hx : ∀ i, x.ptr i ≠ some g := fun i hi => hg k i (by rw [Function.update_self, hi])
    rw [hown.rest g hx]
    refine h.rest fun l i hi => ?_
    by_cases hl : l = k
    · rw [hl, hfree] at hi
      cases hi
    · exact hg l i (by rw [Function.update_of_ne hl, hi])

omit [DecidableEq κ] in
/-- A resource is made outside of the family. -/
theorem make_other (h : Shares uses others L p) (i : ι) {needs : List ℕ}
    (hneeds : ∀ k j n, p k j = some n → n ∉ needs) :
    Shares uses (Function.update others L.next ((L.make i needs).live L.next)) (L.make i needs)
      p := by
  have hne : ∀ k j g, p k j = some g → g ≠ L.next := fun k j g hj =>
    Nat.ne_of_lt (Ledger.lt_of_live (h.live hj))
  refine ⟨h.inj, fun {l j g} hj => ⟨?_, fun g' r hr hn => ?_⟩, fun {l j g} hj => ?_,
    fun {g} hg => ?_⟩
  · rw [Function.update_of_ne (hne l j g hj), (h.added hj).1]
  · by_cases hg' : g' = L.next
    · rw [hg', Function.update_self, Ledger.live_make_self] at hr
      obtain rfl := Option.some.inj hr
      exact hneeds l j g hj (List.mem_filter.mp hn).1
    · rw [Function.update_of_ne hg'] at hr
      exact (h.added hj).2 g' r hr hn
  · obtain ⟨r, hr, hlabel⟩ := h.held hj
    exact ⟨r, (Ledger.live_make_of_ne (hne l j g hj)).trans hr, hlabel⟩
  · by_cases hgn : g = L.next
    · rw [hgn, Function.update_self]
    · rw [Function.update_of_ne hgn, Ledger.live_make_of_ne hgn]
      exact h.rest hg

omit [DecidableEq κ] in
/-- A resource is released outside of the family. -/
theorem release_other (h : Shares uses others L p) {g : ℕ} (hg : (others g).isSome) :
    Shares uses (Function.update others g none) (L.release g) p := by
  have hne : ∀ k j n, p k j = some n → n ≠ g := by
    rintro k j n hj rfl
    rw [(h.added hj).1] at hg
    cases hg
  refine ⟨h.inj, fun {l j n} hj => ⟨?_, fun g' r hr => ?_⟩, fun {l j n} hj => ?_, fun {n} hn => ?_⟩
  · rw [Function.update_of_ne (hne l j n hj), (h.added hj).1]
  · rw [Function.update_apply] at hr
    split_ifs at hr
    exact (h.added hj).2 g' r hr
  · obtain ⟨r, hr, hlabel⟩ := h.held hj
    exact ⟨r, (Ledger.live_release_of_ne (hne l j n hj)).trans hr, hlabel⟩
  · by_cases hng : n = g
    · rw [hng, Function.update_self, Ledger.live_release_self]
    · rw [Function.update_of_ne hng, Ledger.live_release_of_ne hng]
      exact h.rest hn

end Shares

end HMC.Machine
