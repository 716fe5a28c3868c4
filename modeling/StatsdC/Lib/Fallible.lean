import Mathlib.Init

/-!
# Fallible computations

Rules for `Except`.  A proof about a `do` block peels it apart with them and never unfolds the
monad.

The first group says when a sequence of steps succeeds, and with what (`bind_eq_ok`,
`mapM_eq_ok_iff`, `foldlM_invariant`).  The rule of a step is an equivalence, so that a program is
taken apart and put together by the same lemma.

The second group compares two computations with faults of different types, as a model near the
code and an abstract one have them.  `Alike R E` says that both succeed, with results that
`R` relates, or both fail, with faults that `E` relates.  `Follows` leaves the first computation
more freedom: it may also fail where the second succeeds, but not on the way to a result that fits.

A model near the code often has a limit that the abstract one has not: a counter overflows, a
block cannot grow.  `Alike R E L` has a third case for this, in which the first computation ends
in a fault of `L` and nothing is said about the second.  The rule for a sequence
(`Alike.bind`) keeps the three cases apart, so that a run is compared step by step, up to the
first limit that is hit.  Where the limits are shown not to be hit, `Alike.limit_imp` takes the
third case away.
-/

namespace Fallible

variable {α β γ ε ε' : Type}

/-- A step and what follows it succeed exactly if both do, the second on the result of the first. -/
theorem bind_eq_ok {x : Except ε α} {g : α → Except ε γ} {c : γ} :
    x >>= g = .ok c ↔ ∃ a, x = .ok a ∧ g a = .ok c := by
  cases x with
  | error e => simp [bind, Except.bind]
  | ok a => simp [bind, Except.bind]

/-- What follows a step that succeeds. -/
theorem ok_bind {a : α} {g : α → Except ε γ} : (.ok a : Except ε α) >>= g = g a := rfl

theorem pure_eq_ok {a b : α} : (pure a : Except ε α) = .ok b ↔ a = b := by
  simp [pure, Except.pure]

theorem mapError_eq_ok {h : ε → ε'} {x : Except ε α} {a : α} :
    x.mapError h = .ok a ↔ x = .ok a := by
  cases x with
  | error e => exact iff_of_false (by rintro ⟨⟩) (by rintro ⟨⟩)
  | ok b =>
    constructor
    · rintro ⟨⟩
      rfl
    · rintro ⟨⟩
      rfl

theorem eq_ok_of_toOption {x : Except ε α} {a : α} (h : x.toOption = some a) : x = .ok a := by
  cases x with
  | error e => cases h
  | ok b => exact congrArg _ (Option.some.inj h)

/-- **A loop over a list** whose body succeeds where `p` holds, with what `g` says. -/
theorem mapM_eq_ok_iff {f : α → Except ε β} {p : α → Prop} {g : α → β}
    (hf : ∀ a b, f a = .ok b ↔ p a ∧ b = g a) {as : List α} {bs : List β} :
    as.mapM f = .ok bs ↔ (∀ a ∈ as, p a) ∧ bs = as.map g := by
  induction as generalizing bs with
  | nil => simp [pure, Except.pure, eq_comm]
  | cons a as ih =>
    simp only [List.mapM_cons, bind_eq_ok, hf, ih, List.forall_mem_cons, List.map_cons, pure_eq_ok]
    constructor
    · rintro ⟨b, ⟨ha, rfl⟩, bs', ⟨has, rfl⟩, rfl⟩
      exact ⟨⟨ha, has⟩, rfl⟩
    · rintro ⟨⟨ha, has⟩, rfl⟩
      exact ⟨_, ⟨ha, rfl⟩, _, ⟨has, rfl⟩, rfl⟩

/-- A loop whose body succeeds on every element. -/
theorem exists_mapM_ok {f : α → Except ε β} {as : List α} (h : ∀ a ∈ as, ∃ b, f a = .ok b) :
    ∃ bs, as.mapM f = .ok bs := by
  induction as with
  | nil => exact ⟨[], rfl⟩
  | cons a as ih =>
    obtain ⟨b, hb⟩ := h a (List.mem_cons_self ..)
    obtain ⟨bs, hbs⟩ := ih fun a' ha' => h a' (List.mem_cons_of_mem _ ha')
    refine ⟨b :: bs, ?_⟩
    rw [List.mapM_cons, hb, hbs]
    rfl

/-- **When a loop succeeds**: its body does, on every element. -/
theorem exists_mapM_ok_iff {f : α → Except ε β} {as : List α} :
    (∃ bs, as.mapM f = .ok bs) ↔ ∀ a ∈ as, ∃ b, f a = .ok b := by
  refine ⟨fun ⟨bs, hbs⟩ => ?_, exists_mapM_ok⟩
  induction as generalizing bs with
  | nil => exact nofun
  | cons a as ih =>
    simp only [List.mapM_cons, bind_eq_ok] at hbs
    obtain ⟨b, hb, bs', hbs', _⟩ := hbs
    exact List.forall_mem_cons.mpr ⟨⟨b, hb⟩, ih ⟨bs', hbs'⟩ bs' hbs'⟩

/-- What a loop makes of a list, its body has made of an element. -/
theorem exists_of_mem_mapM {f : α → Except ε β} {as : List α} {bs : List β}
    (h : as.mapM f = .ok bs) : ∀ b ∈ bs, ∃ a ∈ as, f a = .ok b := by
  induction as generalizing bs with
  | nil =>
    obtain rfl := pure_eq_ok.mp h
    exact nofun
  | cons a as ih =>
    simp only [List.mapM_cons, bind_eq_ok] at h
    obtain ⟨b, hb, bs', hbs, hok⟩ := h
    obtain rfl := pure_eq_ok.mp hok
    refine List.forall_mem_cons.mpr ⟨⟨a, List.mem_cons_self .., hb⟩, fun b' hb' => ?_⟩
    obtain ⟨a', ha', hok'⟩ := ih hbs b' hb'
    exact ⟨a', List.mem_cons_of_mem _ ha', hok'⟩

/-- **A loop whose body refines another's**: what it makes has the property that the body
gives each element, and the other loop makes its image. -/
theorem mapM_refines {f : α → Except ε β} {g : α → Except ε γ} {h : β → γ} {p : β → Prop}
    {as : List α} (hstep : ∀ a ∈ as, ∀ b, f a = .ok b → g a = .ok (h b) ∧ p b) {bs : List β}
    (hok : as.mapM f = .ok bs) : as.mapM g = .ok (bs.map h) ∧ ∀ b ∈ bs, p b := by
  induction as generalizing bs with
  | nil =>
    obtain rfl := pure_eq_ok.mp hok
    exact ⟨rfl, by rintro b ⟨⟩⟩
  | cons a as ih =>
    simp only [List.mapM_cons, bind_eq_ok] at hok ⊢
    obtain ⟨b, hb, bs', hbs, hok⟩ := hok
    obtain rfl := pure_eq_ok.mp hok
    obtain ⟨hg, hp⟩ := hstep a (List.mem_cons_self ..) b hb
    obtain ⟨hgs, hps⟩ := ih (fun a ha => hstep a (List.mem_cons_of_mem _ ha)) hbs
    exact ⟨⟨h b, hg, bs'.map h, hgs, rfl⟩, List.forall_mem_cons.mpr ⟨hp, hps⟩⟩

/-- **A loop that carries a state**: what every step keeps, the loop keeps. -/
theorem foldlM_invariant {f : β → α → Except ε β} {I : β → Prop} {as : List α}
    (hf : ∀ b a b', a ∈ as → I b → f b a = .ok b' → I b') {b b' : β} (hb : I b)
    (h : as.foldlM f b = .ok b') : I b' := by
  induction as generalizing b with
  | nil =>
    obtain rfl := pure_eq_ok.mp h
    exact hb
  | cons a as ih =>
    rw [List.foldlM_cons, bind_eq_ok] at h
    obtain ⟨b₁, hstep, hrest⟩ := h
    refine ih (fun b a b' ha => hf b a b' (List.mem_cons_of_mem _ ha)) ?_ hrest
    exact hf b a b₁ (List.mem_cons_self ..) hb hstep

/-! ## Computations that end alike -/

/-- Both computations succeed, with results that `R` relates, or both fail, with errors
that `E` relates; or else the first one has met a limit that the second one does not know,
with an error that `L` allows. -/
inductive Alike (R : α → β → Prop) (E : ε → ε' → Prop) (L : ε → Prop) :
    Except ε α → Except ε' β → Prop
  | ok {a : α} {b : β} : R a b → Alike R E L (.ok a) (.ok b)
  | error {e : ε} {e' : ε'} : E e e' → Alike R E L (.error e) (.error e')
  | limit {e : ε} {y : Except ε' β} : L e → Alike R E L (.error e) y

section Alike
variable {δ : Type} {R : α → β → Prop} {S : γ → δ → Prop} {E : ε → ε' → Prop} {L : ε → Prop}
  {x : Except ε α} {y : Except ε' β}

/-- **Steps that end alike** can be put together, if what follows them ends alike on related
results. -/
theorem Alike.bind {f : α → Except ε γ} {g : β → Except ε' δ} (h : Alike R E L x y)
    (hfg : ∀ a b, y = .ok b → R a b → Alike S E L (f a) (g b)) :
    Alike S E L (x >>= f) (y >>= g) := by
  cases h with
  | ok hR => exact hfg _ _ rfl hR
  | error hE => exact .error hE
  | limit hL => exact .limit hL

/-- A computation and the same one with its errors renamed. -/
theorem alike_mapError {rename : ε' → ε} (hE : ∀ e', E (rename e') e') (y : Except ε' β) :
    Alike Eq E L (y.mapError rename) y := by
  cases y with
  | error e' => exact .error (hE e')
  | ok b => exact .ok rfl

/-- The errors of the second one renamed. -/
theorem Alike.mapError_right {ε₁ : Type} {E' : ε → ε₁ → Prop} {rename : ε' → ε₁}
    (h : Alike R E L x y) (hE : ∀ e e', E e e' → E' e (rename e')) :
    Alike R E' L x (y.mapError rename) := by
  cases h with
  | ok hR => exact .ok hR
  | error h => exact .error (hE _ _ h)
  | limit hL => exact .limit hL

/-- A limit that is met less often. -/
theorem Alike.limit_imp {L' : ε → Prop} (h : Alike R E L x y) (hL : ∀ e, L e → L' e) :
    Alike R E L' x y := by
  cases h with
  | ok hR => exact .ok hR
  | error hE => exact .error hE
  | limit h => exact .limit (hL _ h)

/-- What the first one results in, the second one results in as well, up to the relation. -/
theorem Alike.of_left {a : α} (h : Alike R E L x y) (hx : x = .ok a) :
    ∃ b, y = .ok b ∧ R a b := by
  subst hx
  cases h with
  | ok hR => exact ⟨_, rfl, hR⟩

/-- What the second one results in, the first one results in if it meets no limit. -/
theorem Alike.of_right {b : β} (h : Alike R E L x y) (hy : y = .ok b) :
    (∃ a, x = .ok a ∧ R a b) ∨ ∃ e, x = .error e ∧ L e := by
  subst hy
  cases h with
  | ok hR => exact .inl ⟨_, rfl, hR⟩
  | limit hL => exact .inr ⟨_, rfl, hL⟩

end Alike

/-! ## Computations with a limit of their own -/

/-- The first computation results in what the second does.  It may also fail where the second
does not, with an error that `E` allows, but not on the way to a result that `fits`. -/
structure Follows (R : α → β → Prop) (fits : β → Prop) (E : ε → Prop) (x : Except ε α)
    (y : Except ε' β) : Prop where
  ok : ∀ a, x = .ok a → ∃ b, y = .ok b ∧ R a b
  within : ∀ b, y = .ok b → fits b → ∃ a, x = .ok a ∧ R a b
  error : ∀ e, x = .error e → E e

section Follows
variable {δ : Type} {R : α → β → Prop} {S : γ → δ → Prop} {fits : β → Prop} {fits' : δ → Prop}
  {E : ε → Prop} {x : Except ε α} {y : Except ε' β}

theorem follows_ok {a : α} {b : β} (h : R a b) :
    Follows R fits E (.ok a) (.ok b : Except ε' β) := by
  refine ⟨fun a' ha => ?_, fun b' hb _ => ?_, fun e he => nomatch he⟩
  · obtain rfl := Except.ok.inj ha
    exact ⟨b, rfl, h⟩
  · obtain rfl := Except.ok.inj hb
    exact ⟨a, rfl, h⟩

theorem follows_error {e : ε} {e' : ε'} (h : E e) :
    Follows R fits E (.error e) (.error e' : Except ε' β) := by
  refine ⟨fun _ ha => (by cases ha), fun _ hb => (by cases hb), fun e₁ he => ?_⟩
  obtain rfl := Except.error.inj he
  exact h

/-- **Steps that follow others** can be put together, if what comes before a result that fits
fits as well. -/
theorem Follows.bind {f : α → Except ε γ} {g : β → Except ε' δ} (h : Follows R fits E x y)
    (hfg : ∀ a b, y = .ok b → R a b → Follows S fits' E (f a) (g b))
    (hfits : ∀ b c, y = .ok b → g b = .ok c → fits' c → fits b) :
    Follows S fits' E (x >>= f) (y >>= g) := by
  refine ⟨fun c hc => ?_, fun d hd hfit => ?_, fun e he => ?_⟩
  · obtain ⟨a, hx, hf⟩ := bind_eq_ok.mp hc
    obtain ⟨b, hy, hab⟩ := h.ok a hx
    obtain ⟨d, hg, hcd⟩ := (hfg a b hy hab).ok c hf
    exact ⟨d, bind_eq_ok.mpr ⟨b, hy, hg⟩, hcd⟩
  · obtain ⟨b, hy, hg⟩ := bind_eq_ok.mp hd
    obtain ⟨a, hx, hab⟩ := h.within b hy (hfits b d hy hg hfit)
    obtain ⟨c, hf, hcd⟩ := (hfg a b hy hab).within d hg hfit
    exact ⟨c, bind_eq_ok.mpr ⟨a, hx, hf⟩, hcd⟩
  · cases hx : x with
    | error e' =>
      rw [hx] at he
      obtain rfl := Except.error.inj he
      exact h.error e' hx
    | ok a =>
      obtain ⟨b, hy, hab⟩ := h.ok a hx
      rw [hx] at he
      exact (hfg a b hy hab).error e he

/-- The errors of the first one renamed. -/
theorem Follows.mapError_left {ε₁ : Type} {E₁ : ε₁ → Prop} {rename : ε → ε₁}
    (h : Follows R fits E x y) (hE : ∀ e, E e → E₁ (rename e)) :
    Follows R fits E₁ (x.mapError rename) y := by
  refine ⟨fun a ha => h.ok a (mapError_eq_ok.mp ha), fun b hb hfit => ?_, fun e he => ?_⟩
  · obtain ⟨a, hx, hab⟩ := h.within b hb hfit
    exact ⟨a, mapError_eq_ok.mpr hx, hab⟩
  · cases hx : x with
    | error e' =>
      rw [hx] at he
      obtain rfl := Except.error.inj he
      exact hE e' (h.error e' hx)
    | ok a =>
      rw [hx] at he
      cases he

/-- The errors of the second one renamed. -/
theorem Follows.mapError_right {ε₁ : Type} {rename : ε' → ε₁} (h : Follows R fits E x y) :
    Follows R fits E x (y.mapError rename) := by
  refine ⟨fun a ha => ?_, fun b hb hfit => h.within b (mapError_eq_ok.mp hb) hfit, h.error⟩
  obtain ⟨b, hy, hab⟩ := h.ok a ha
  exact ⟨b, mapError_eq_ok.mpr hy, hab⟩

/-- A computation and the same one with its errors renamed. -/
theorem follows_mapError {rename : ε' → ε} (hE : ∀ e, E (rename e)) (y : Except ε' β) :
    Follows Eq (fun _ => True) E (y.mapError rename) y := by
  cases y with
  | error e => exact follows_error (hE e)
  | ok b => exact follows_ok rfl

theorem Follows.imp {R' : α → β → Prop} {fits₁ : β → Prop} (h : Follows R fits E x y)
    (hR : ∀ a b, R a b → R' a b) (hfits : ∀ b, fits₁ b → fits b) : Follows R' fits₁ E x y := by
  refine ⟨fun a ha => ?_, fun b hb hfit => ?_, h.error⟩
  · obtain ⟨b, hy, hab⟩ := h.ok a ha
    exact ⟨b, hy, hR a b hab⟩
  · obtain ⟨a, hx, hab⟩ := h.within b hb (hfits b hfit)
    exact ⟨a, hx, hR a b hab⟩

end Follows

end Fallible
