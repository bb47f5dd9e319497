import ConstraintLogic.Proofs.Unification.Attachment

/-!
# Aliasing

Unification binds variables that have domains and propagators. A variable that takes
a value hands the value to its attributes, and a variable that becomes another one
hands its attributes over, one by one; the others are detached meanwhile, and their
propagators known outside. Either way what was said is still said, and nothing but
the equation is added.

Results:
* `Subst.OrderlyIn.instantiate`: binding a variable to a value.
* `Subst.Instantiates`, `Subst.Orderly.instantiates`: what that comes to.
* `Subst.OrderlyIn.combine`, `Subst.OrderlyIn.moveAttr`: handing attributes over.
* `Subst.Moves`, `Subst.Suits.moves`: what that comes to.
* `Subst.retire`, `Subst.OrderlyIn.identify`: making two variables one.
* `Subst.orderlyLaws`: bindings with attributes follow the laws of binding.
* `Subst.Orderly.unify`: unification adds just the equation of its terms.
* `Subst.Lasting.unify`: what is kept where a variable is bound, unification keeps.
-/

namespace ConstraintLogic.Subst

variable {K : Scope} {T : Term → Prop} {s t : Subst}

/-! ## Values -/

theorem OrderlyIn.mono {L : Scope} (h : s.OrderlyIn K T) (same : K.readings = L.readings)
    (fewer : ∀ p, L.known p → s.Carries K p) : s.OrderlyIn L T :=
  ⟨h.orderly.mono same fewer, h.bound⟩

/-- What is stored counts as known while an attempt is made. -/
theorem OrderlyIn.adds_of_carries {E : (Var → Term) → Prop} {r : Attempt Subst}
    (h : s.Adds { K with known := s.Carries K } T E r) : s.Adds K T E r :=
  h.mono fun _ good => good.mono rfl fun _ known => .inl (.inl known)

/-- A domain decides alone what a value for its variable means. -/
theorem OrderlyIn.validate_domain (h : s.OrderlyIn K T) (ints : ∀ n, isValue n = true → T (.int n))
    (v : Var) {value : Term} (not_var : ∀ w, value ≠ .var w) (sized : value.Sized)
    (a : Stamped DomainFact) :
    s.Adds K T (fun θ => θ v = value.expand θ ∧ (Attribute.domain a).HoldsAt θ v)
      (s.validate v value (.domain a)) := by
  have other (none : value.asInt? = Option.none) :
      s.Adds K T (fun θ => θ v = value.expand θ ∧ (Attribute.domain a).HoldsAt θ v)
        (.error .conflict) := by
    refine .conflict fun θ _ ⟨equal, n, int, _⟩ => ?_
    rw [equal] at int
    cases value with
    | var w => exact not_var w rfl
    | atom b =>
      cases int
      cases none
    | _ => cases int
  dsimp only [Subst.validate]
  split
  · rename_i n found
    cases Term.eq_int_of_asInt? found
    have equal_iff (θ : Var → Term) : (Term.int n).expand θ = .int n := rfl
    split
    · rename_i inside
      refine (h.solveReduced ints (Solver.canonical_singleton sized) nofun).congr fun θ _ => ?_
      rw [equal_iff]
      constructor
      · rintro ⟨m, read, value, mem⟩
        rw [Domain.mem_singleton.mp mem] at read value
        exact ⟨read, n, read, value, inside⟩
      · rintro ⟨read, _⟩
        exact ⟨n, read, sized, Domain.mem_singleton.mpr rfl⟩
    · rename_i outside
      refine .conflict fun θ _ ⟨equal, m, int, _, mem⟩ => outside ?_
      rw [equal, equal_iff] at int
      cases int
      exact mem
  · rename_i none
    exact other none

/-- An attribute of a variable that has taken a value is consulted on that value. -/
theorem OrderlyIn.validate (h : s.OrderlyIn K T) (ints : ∀ n, isValue n = true → T (.int n))
    {v : Var} {value : Term} (not_var : ∀ w, value ≠ .var w) (sized : value.Sized)
    (equal : ∀ θ, s.Agrees θ → θ v = value.expand θ) {a : Attribute}
    (suits : s.Suits K.known v a) :
    s.Adds K T (fun θ => a.HoldsAt θ v) (s.validate v value a) := by
  cases a with
  | domain a =>
    refine (h.validate_domain ints v not_var sized a).congr fun θ admitted => ?_
    exact and_iff_right (equal θ admitted.2.binding)
  | watchers a =>
    dsimp only [Subst.validate]
    split
    · exact h.solveWith ints fun p mem => (suits.2 p mem).1
    · rename_i none
      -- Some propagator mentions the variable, so it has to be an integer.
      refine .conflict fun θ admitted holds => ?_
      obtain ⟨p, mem⟩ := List.exists_mem_of_ne_nil _ suits.1
      obtain ⟨_, w, mem_w, same⟩ := suits.2 p mem
      obtain ⟨σ, values, _⟩ := holds p mem
      have agrees := admitted.2.binding
      have read : value.expand θ = .int (σ w) := by
        rw [← equal θ agrees, ← (values w mem_w).1]
        have walk_v := agrees.expand_walk (.var v)
        rw [← same, agrees.expand_walk] at walk_v
        exact walk_v.symm
      cases value with
      | var w => exact not_var w rfl
      | atom b =>
        cases read
        cases none
      | _ => cases read
  | _ => exact suits.elim

/-- All attributes of a variable are consulted on the value that it has taken. -/
theorem OrderlyIn.validateAll (ints : ∀ n, isValue n = true → T (.int n)) {v : Var} {value : Term}
    (not_var : ∀ w, value ≠ .var w) (sized : value.Sized) (attrs : List Attribute) :
    ∀ s : Subst, s.OrderlyIn K T → (∀ θ, s.Agrees θ → θ v = value.expand θ) →
      (∀ a ∈ attrs, s.Suits K.known v a) →
      s.Adds K T (fun θ => ∀ a ∈ attrs, a.HoldsAt θ v)
        (attrs.foldlM (fun s a => s.validate v value a) s) := by
  induction attrs with
  | nil => exact fun s h _ _ => .ok h fun θ _ => by simp
  | cons a attrs ih =>
    intro s h equal suits
    rw [List.foldlM_cons]
    refine ((h.validate ints not_var sized equal (suits a (by simp))).bind ?_).congr
      fun θ _ => List.forall_mem_cons.symm
    intro t good ext
    refine ih t good (fun θ agrees => equal θ (agrees.of_extends ext)) fun b mem => ?_
    exact (suits b (by simp [mem])).of_extends good.orderly.acyclic ext

theorem OrderlyIn.bindBare (h : s.OrderlyIn K T) {v : Var} {b : Term} (unbound : s.get? v = none)
    (fresh : s.occurs v b = false) (sized : b.Sized) (good : T b) :
    (s.bindBare v b).OrderlyIn { K with known := s.Carries K } T := by
  refine ⟨h.orderly.bindBare unbound fresh sized, fun w t bound => ?_⟩
  rw [get?_bindBare] at bound
  split at bound
  · cases bound
    exact good
  · exact h.bound w t bound

/-- The attributes of a variable suit it when it has been bound. -/
theorem Orderly.suits_bindBare (h : s.Orderly K) {v : Var} {b : Term} (unbound : s.get? v = none)
    (fresh : s.occurs v b = false) (sized : b.Sized) {a : Attribute}
    (mem : a ∈ (s.attributes v).toList) : (s.bindBare v b).Suits (s.Carries K) v a :=
  (h.suits (Attributes.mem_toList.mp mem)).of_extends (h.bindBare unbound fresh sized).acyclic
    (.bindBare unbound b)

theorem OrderlyIn.bindRetired {keep v : Var} (h : s.OrderlyIn K T) (retires : s.Retires keep v)
    (good : T (.var keep)) : (s.bindBare v (.var keep)).OrderlyIn { K with known := s.Carries K } T :=
  h.bindBare retires.unbound retires.fresh trivial good

/-- The attributes of a variable suit the one that it has become. -/
theorem Orderly.suits_retired {keep v : Var} (h : s.Orderly K) (retires : s.Retires keep v) {a : Attribute}
    (mem : a ∈ (s.attributes v).toList) : (s.bindBare v (.var keep)).Suits (s.Carries K) keep a :=
  (h.suits_bindBare retires.unbound retires.fresh trivial mem).congr (retires.walk_eq h.acyclic)

/-- Binding a variable to a term that is no variable makes it equal to the term. -/
theorem OrderlyIn.instantiate (h : s.OrderlyIn K T) (ints : ∀ n, isValue n = true → T (.int n))
    {v : Var} {b : Term} (unbound : s.get? v = none) (not_var : ∀ w, b ≠ .var w)
    (sized : b.Sized) (good : T b) :
    s.Adds K T (fun θ => θ v = b.expand θ) (s.instantiate v b) := by
  unfold Subst.instantiate
  split
  · rename_i occurs
    exact .conflict fun θ admitted => admitted.2.binding.ne_expand_of_occurs occurs not_var
  · rename_i fresh
    replace fresh : s.occurs v b = false := by simpa using fresh
    dsimp only
    split
    · rename_i a found
      have mem := List.mem_of_find?_eq_some found
      have delegates := List.find?_some found
      have at_v := Attributes.mem_toList.mp mem
      have suits := h.orderly.suits at_v
      cases a with
      | domain a =>
        refine (h.validate_domain ints v not_var sized a).congr fun θ admitted => ?_
        exact and_iff_left ((admits_iff.mp admitted.2).2 v _ at_v)
      | watchers a => cases delegates
      | _ => exact suits.elim
    · have bare := h.bindBare unbound fresh sized good
      have equal (θ : Var → Term) (agrees : (s.bindBare v b).Agrees θ) : θ v = b.expand θ :=
        agrees v b (by rw [get?_bindBare, if_pos rfl])
      have added := OrderlyIn.validateAll ints not_var sized _ _ bare equal fun a mem =>
        h.orderly.suits_bindBare unbound fresh sized mem
      refine OrderlyIn.adds_of_carries (added.rebase (.bindBare unbound b) fun θ => ?_)
      rw [and_assoc, admits_bindBare unbound, and_assoc]

/-- The attributes of a variable are its domain and its propagators. -/
theorem Orderly.toList_attributes (h : s.Orderly K) (v : Var) : (s.attributes v).toList =
    ((s.attributes v).domain.map Attribute.domain).toList ++
      ((s.attributes v).watchers.map Attribute.watchers).toList := by
  obtain ⟨allowed, tag, zero⟩ := h.simple v
  cases domain : (s.attributes v).domain <;> cases watchers : (s.attributes v).watchers <;>
    simp [Attributes.toList, AttrName.all, Attributes.get?, allowed, tag, zero, domain, watchers]

/-- A value that suits a domain is left to the variable alone. -/
theorem solveReduced_of_validate {v : Var} {value : Term} {a : Stamped DomainFact}
    (run : s.validate v value (.domain a) = .ok t) :
    ∃ n ∈ a.val.domain, value = .int n ∧ s.solveReduced v (.singleton n) = .ok t := by
  dsimp only [Subst.validate] at run
  split at run
  · rename_i n found
    split at run
    · rename_i inside
      exact ⟨n, inside, Term.eq_int_of_asInt? found, run⟩
    · cases run
  · cases run

/-- A value makes propagators run. -/
theorem solveWith_of_validate {v : Var} {value : Term} {a : Stamped (List Propagator)}
    (run : s.validate v value (.watchers a) = .ok t) : s.solveWith a.val = .ok t := by
  dsimp only [Subst.validate] at run
  split at run
  · exact run
  · cases run

/-- How a variable with a domain or propagators takes a term that is no variable. -/
inductive Instantiates (s : Subst) (v : Var) (b : Term) (t : Subst) : Prop
  /-- A domain decides alone: a solver leaves it the integer that the term is. -/
  | narrowed {a : Stamped DomainFact} {n : Int} (at_v : (s.attributes v).domain = some a) (inside : n ∈ a.val.domain)
      (value : b = .int n) (run : s.solveReduced v (.singleton n) = .ok t)
  /-- There is nothing to consult. -/
  | bound (fresh : s.occurs v b = false) (no_domain : (s.attributes v).domain = none)
      (unwatched : (s.attributes v).watchers = none) (done : t = s.bindBare v b)
  /-- The variable is bound, and its propagators are run. -/
  | propagated {a : Stamped (List Propagator)} (fresh : s.occurs v b = false)
      (no_domain : (s.attributes v).domain = none) (at_v : (s.attributes v).watchers = some a)
      (run : (s.bindBare v b).solveWith a.val = .ok t)

theorem Orderly.instantiates (h : s.Orderly K) {v : Var} {b : Term} (run : s.instantiate v b = .ok t) : s.Instantiates v b t := by
  unfold Subst.instantiate at run
  split at run
  · cases run
  rename_i fresh
  replace fresh : s.occurs v b = false := by simpa using fresh
  dsimp only at run
  rw [h.toList_attributes v] at run
  cases domain : (s.attributes v).domain with
  | some a =>
    rw [domain] at run
    obtain ⟨n, inside, value, reduced⟩ := solveReduced_of_validate run
    exact .narrowed domain inside value reduced
  | none =>
    cases watched : (s.attributes v).watchers with
    | none =>
      rw [domain, watched] at run
      cases run
      exact .bound fresh domain watched rfl
    | some a =>
      rw [domain, watched] at run
      obtain ⟨u, consulted, rest⟩ := exists_of_bind_ok (List.foldlM_cons.symm.trans run)
      cases rest
      exact .propagated fresh domain watched (solveWith_of_validate consulted)

/-- The propagators of a variable are known while an attempt is made. -/
theorem carries_of_watchers {v : Var} {a : Stamped (List Propagator)} (at_v : (s.attributes v).watchers = some a) :
    ∀ p ∈ a.val, s.Carries K p := fun _ mem => .inr ⟨v, mem_storedWatchers_iff.mpr ⟨a, at_v, mem⟩⟩

/-! ## Combining -/

theorem mem_unionWatchers_left (ps qs : List Propagator) {p : Propagator} (mem : p ∈ ps) :
    p ∈ unionWatchers ps qs := by
  unfold unionWatchers
  induction qs generalizing ps with
  | nil => exact mem
  | cons q qs ih =>
    rw [List.foldl_cons]
    refine ih _ ?_
    split
    · exact mem
    · exact List.mem_append_left [q] mem

theorem mem_of_mem_unionWatchers {ps qs : List Propagator} {p : Propagator}
    (mem : p ∈ unionWatchers ps qs) : p ∈ ps ∨ p ∈ qs := by
  unfold unionWatchers at mem
  induction qs generalizing ps with
  | nil => exact .inl mem
  | cons q qs ih =>
    rw [List.foldl_cons] at mem
    rcases ih mem with before | later
    · split at before
      · exact .inl before
      · rcases List.mem_append.mp before with old | new
        · exact .inl old
        · exact .inr (List.mem_cons.mpr (.inl (List.mem_singleton.mp new)))
    · exact .inr (List.mem_cons_of_mem q later)

/-- A propagator that is left out of the union has its stamp there. -/
theorem exists_stamp_unionWatchers (ps qs : List Propagator) {q : Propagator} (mem : q ∈ qs) :
    ∃ p ∈ unionWatchers ps qs, p.stamp = q.stamp := by
  unfold unionWatchers
  induction qs generalizing ps with
  | nil => cases mem
  | cons r qs ih =>
    rw [List.foldl_cons]
    rcases List.mem_cons.mp mem with rfl | mem
    · split
      · rename_i found
        obtain ⟨p, in_ps, same⟩ := List.any_eq_true.mp found
        refine ⟨p, mem_unionWatchers_left ps qs in_ps, ?_⟩
        exact (of_decide_eq_true same).symm
      · exact ⟨q, mem_unionWatchers_left _ qs (by simp), rfl⟩
    · exact ih _ mem

/-- The union has the propagators of both lists if one stamp is one propagator. -/
theorem Orderly.mem_unionWatchers (h : s.Orderly K) {ps qs : List Propagator}
    (carried : ∀ p ∈ ps, s.Carries K p) (carried' : ∀ q ∈ qs, s.Carries K q) {p : Propagator} :
    p ∈ unionWatchers ps qs ↔ p ∈ ps ∨ p ∈ qs := by
  refine ⟨mem_of_mem_unionWatchers, ?_⟩
  rintro (mem | mem)
  · exact mem_unionWatchers_left ps qs mem
  · obtain ⟨q, in_union, same⟩ := exists_stamp_unionWatchers ps qs mem
    have carries : s.Carries K q := (mem_of_mem_unionWatchers in_union).elim (carried q) (carried' q)
    rw [← h.coherent q p carries (carried' p mem) same]
    exact in_union

/-- An attribute that is attached says no less than the one that it replaces. -/
theorem OrderlyIn.setAttr (h : s.OrderlyIn K T) {v : Var} {a : Attribute} (unbound : s.get? v = none)
    (suits : s.Suits (s.Carries K) v a)
    (cover : ∀ b, s.getAttr v a.name = some b → ∀ θ, a.HoldsAt θ v → b.HoldsAt θ v) :
    s.Adds K T (fun θ => a.HoldsAt θ v) (.ok (s.setAttr v a)) := by
  refine ⟨⟨h.orderly.attach unbound suits, h.bound⟩, .refl s, fun θ => ?_⟩
  dsimp only
  rw [admits_setAttr fun b found => cover b found θ, and_assoc]

/-- The variable with the propagators of two lists, each of them once. -/
def attachUnion (s : Subst) (v : Var) (b a : Stamped (List Propagator)) : Subst :=
  let u := s.stamped (unionWatchers b.val a.val)
  u.2.setAttr v (.watchers u.1)

theorem watchers_attachUnion (s : Subst) (v : Var) (b a : Stamped (List Propagator)) :
    ((s.attachUnion v b a).attributes v).watchers = some (s.stamped (unionWatchers b.val a.val)).1 := by
  simp [attachUnion, Attributes.set]

theorem carries_attachUnion {v : Var} {b a : Stamped (List Propagator)} :
    ∀ p ∈ unionWatchers b.val a.val, (s.attachUnion v b a).Carries K p :=
  carries_of_watchers (s.watchers_attachUnion v b a)

section Union

variable {v : Var} {a b : Stamped (List Propagator)} (at_v : (s.attributes v).watchers = some b)

include at_v

/-- The propagators that a variable has suit it. -/
theorem Orderly.suits_watchers (h : s.Orderly K) : s.Suits (s.Carries K) v (.watchers b) :=
  h.suits (by simp [Attribute.name, Attributes.get?, at_v])

/-- The union of the propagators that a variable has and of those that come to it. -/
theorem Orderly.mem_union (h : s.Orderly K) (suits : s.Suits K.known v (.watchers a)) {p : Propagator} :
    p ∈ unionWatchers b.val a.val ↔ p ∈ b.val ∨ p ∈ a.val :=
  h.mem_unionWatchers (fun p mem => ((h.suits_watchers at_v).2 p mem).1) fun p mem => .inl (suits.2 p mem).1

/-- The union suits the variable. -/
theorem Orderly.suits_union (h : s.Orderly K) (suits : s.Suits K.known v (.watchers a)) :
    let u := s.stamped (unionWatchers b.val a.val)
    u.2.Suits (u.2.Carries K) v (.watchers u.1) := by
  intro u
  have before := h.suits_watchers at_v
  refine ⟨fun nil => ?_, fun p mem => ?_⟩
  · obtain ⟨p, mem⟩ := List.exists_mem_of_ne_nil _ before.1
    exact List.not_mem_nil (nil ▸ (h.mem_union at_v suits).mpr (.inl mem) : p ∈ [])
  · rw [walk_congr (s := s) (t := u.2) rfl]
    rcases (h.mem_union at_v suits).mp mem with old | new
    · exact before.2 p old
    · exact ⟨.inl (suits.2 p new).1, (suits.2 p new).2⟩

/-- What is attached together is then known. -/
theorem Orderly.attachUnion (h : s.Orderly K) (unbound : s.get? v = none) (suits : s.Suits K.known v (.watchers a)) :
    (s.attachUnion v b a).Orderly { K with known := (s.attachUnion v b a).Carries K } :=
  ((h.raise (Nat.le_succ s.supply)).attach unbound (h.suits_union at_v suits)).mono rfl fun _ carries => carries

end Union

/-- The propagators that a variable has and those that come to it are attached
    together, and run. -/
theorem OrderlyIn.combine_watchers (h : s.OrderlyIn K T) (ints : ∀ n, isValue n = true → T (.int n))
    {v : Var} (unbound : s.get? v = none) {a b : Stamped (List Propagator)}
    (at_v : (s.attributes v).watchers = some b) (suits : s.Suits K.known v (.watchers a)) :
    s.Adds K T (fun θ => ∀ p ∈ a.val, p.val.HoldsOf θ)
      ((s.attachUnion v b a).solveWith (unionWatchers b.val a.val)) := by
  let u := s.stamped (unionWatchers b.val a.val)
  have found : s.getAttr v .watchers = some (.watchers b) := getAttr_watchers_iff.mpr at_v
  have union {p : Propagator} := h.orderly.mem_union (p := p) at_v suits
  have good : u.2.OrderlyIn K T := ⟨h.orderly.raise (Nat.le_succ s.supply), h.bound⟩
  have attached : u.2.Adds K T (fun θ => ∀ p ∈ unionWatchers b.val a.val, p.val.HoldsOf θ) (.ok (s.attachUnion v b a)) :=
    good.setAttr unbound (h.orderly.suits_union at_v suits) fun c c_at_v θ holds => by
      cases found.symm.trans c_at_v
      exact fun p mem => holds p (union.mpr (.inl mem))
  obtain ⟨good', ext, exact_⟩ := attached
  have known : (s.attachUnion v b a).OrderlyIn { K with known := (s.attachUnion v b a).Carries K } T :=
    good'.mono rfl fun p carries => carries
  have run := known.solveWith ints carries_attachUnion
  refine (adds_of_carries run).rebase ext fun θ => ?_
  dsimp only at exact_
  rw [exact_]
  have same : u.2.Admits θ ↔ s.Admits θ := admits_congr rfl rfl
  constructor
  · rintro ⟨⟨⟨reading, admits⟩, _⟩, holds⟩
    exact ⟨⟨reading, same.mp admits⟩, fun p mem => holds p (union.mpr (.inr mem))⟩
  · rintro ⟨⟨reading, admits⟩, holds⟩
    have all (p : Propagator) (mem : p ∈ unionWatchers b.val a.val) : p.val.HoldsOf θ := by
      rcases union.mp mem with old | new
      · exact admits.watchers v b at_v p old
      · exact holds p new
    exact ⟨⟨⟨reading, same.mpr admits⟩, all⟩, all⟩

/-- Two attributes of one kind become what the variable has of that kind after an
    attempt that adds what the second one says. -/
theorem OrderlyIn.combine (h : s.OrderlyIn K T) (ints : ∀ n, isValue n = true → T (.int n)) {v : Var}
    (unbound : s.get? v = none) {existing a : Attribute} (found : s.getAttr v a.name = some existing)
    (suits : s.Suits K.known v a) :
    ∃ r, s.combine v existing a = (do let t ← r; return (t.getAttr v a.name, t)) ∧
      s.Adds K T (fun θ => a.HoldsAt θ v) r := by
  have name := Attributes.name_of_get? found
  cases a with
  | domain a =>
    cases existing with
    | domain b =>
      refine ⟨s.solveReduced v a.val.domain, rfl, ?_⟩
      exact h.solveReduced ints suits.canonical fun full => absurd full suits.finite
    | _ => cases name
  | watchers a =>
    cases existing with
    | watchers b =>
      obtain ⟨c, at_v, same⟩ := Option.map_eq_some_iff.mp found
      cases same
      exact ⟨_, rfl, h.combine_watchers ints unbound at_v suits⟩
    | _ => cases name
  | _ => exact suits.elim

/-- The substitution after `v` has been given again what it has of a kind. -/
def putBack (s : Subst) (v : Var) (name : AttrName) : Subst :=
  match s.getAttr v name with
  | some a => s.setAttr v a
  | none => s.removeAttr v name

theorem attributes_putBack (s : Subst) (v : Var) (name : AttrName) :
    (s.putBack v name).attributes = s.attributes := by
  funext w
  refine Attributes.ext_get? fun other => ?_
  unfold putBack
  split
  · rename_i a found
    rw [attributes_setAttr]
    split
    · rename_i same
      subst same
      rw [Attributes.get?_set, Attributes.name_of_get? found]
      split
      · rename_i same
        subst same
        exact found.symm
      · rfl
    · rfl
  · rename_i found
    rw [attributes_removeAttr]
    split
    · rename_i same
      subst same
      rw [Attributes.get?_erase]
      split
      · rename_i same
        subst same
        exact found.symm
      · rfl
    · rfl

theorem putBack_frame (s : Subst) (v : Var) (name : AttrName) :
    (s.putBack v name).bindings = s.bindings ∧ (s.putBack v name).supply = s.supply := by
  unfold putBack
  split
  · exact ⟨rfl, rfl⟩
  · exact Solver.bindings_removeAttr s v name

theorem OrderlyIn.putBack (h : s.OrderlyIn K T) (v : Var) (name : AttrName) :
    s.Adds K T (fun _ => True) (.ok (s.putBack v name)) := by
  have attributes := s.attributes_putBack v name
  obtain ⟨bindings, supply⟩ := s.putBack_frame v name
  have get (w : Var) : (s.putBack v name).get? w = s.get? w := by rw [get?, get?, bindings]
  refine ⟨⟨h.orderly.congr bindings attributes supply.ge, fun w t bound => ?_⟩, fun w t bound => ?_,
    fun θ => ?_⟩
  · exact h.bound w t (get w ▸ bound)
  · rw [get, bound]
  · dsimp only
    rw [admits_congr bindings attributes, and_true]

/-! ## Moving -/

theorem moveAttr_eq (keep : Var) (s : Subst) (joined : List Attribute) (a : Attribute) :
    Prod.fst <$> moveAttr keep (s, joined) a =
      match s.walk (.var keep) with
      | .var rep =>
        match s.getAttr rep a.name with
        | none => .ok (s.setAttr rep a)
        | some existing => do
          let (merged, s) ← s.combine rep existing a
          if s.walkVar rep = some rep then
            match merged with
            | some m => return s.setAttr rep m
            | none => return s.removeAttr rep a.name
          else return s
      | value => s.validate keep value a := by
  unfold moveAttr
  dsimp only
  cases s.walk (.var keep) with
  | var rep =>
    dsimp only
    cases s.getAttr rep a.name with
    | none => rfl
    | some existing =>
      dsimp only
      cases s.combine rep existing a with
      | error why => rfl
      | ok found =>
        obtain ⟨merged, s⟩ := found
        show Prod.fst <$> (if s.walkVar rep = some rep then _ else _ : Attempt _) =
          if s.walkVar rep = some rep then _ else _
        split
        · cases merged <;> rfl
        · rfl
  | _ =>
    dsimp only
    generalize s.validate keep _ a = r
    cases r <;> rfl

/-- What an attribute comes to that meets one of its kind: the two are combined, and the
    variable is given what it then has of the kind. -/
theorem moveAttr_existing {a existing : Attribute} {keep rep : Var} {joined joined' : List Attribute}
    {r : Attempt Subst} (leads : s.walk (.var keep) = .var rep)
    (found : s.getAttr rep a.name = some existing)
    (combined : s.combine rep existing a = (do let u ← r; return (u.getAttr rep a.name, u)))
    (run : Subst.moveAttr keep (s, joined) a = .ok (t, joined')) :
    joined' = joined ∧ ∃ u, r = .ok u ∧ (t = u ∨ t = u.putBack rep a.name) := by
  unfold Subst.moveAttr at run
  simp only [leads, found] at run
  rw [combined] at run
  obtain ⟨⟨merged, u⟩, combined_ok, rest⟩ := exists_of_bind_ok run
  obtain ⟨u', ran, answer⟩ := exists_of_bind_ok combined_ok
  obtain ⟨rfl, rfl⟩ := Prod.mk.inj (Except.ok.inj answer)
  dsimp only at rest
  split at rest
  · split at rest
    · rename_i m merged
      cases rest
      exact ⟨rfl, u', ran, .inr (by rw [Subst.putBack, merged])⟩
    · rename_i merged
      cases rest
      exact ⟨rfl, u', ran, .inr (by rw [Subst.putBack, merged])⟩
  · cases rest
    exact ⟨rfl, _, ran, .inl rfl⟩

/-- How a domain or propagators move to a variable. -/
inductive Moves (s : Subst) (keep : Var) (joined : List Attribute) (a : Attribute) (t : Subst)
    (joined' : List Attribute) : Prop
  /-- The unbound variable that it stands for takes the attribute as it is. -/
  | taken {rep : Var} (leads : s.walk (.var keep) = .var rep) (missing : s.getAttr rep a.name = none)
      (done : t = s.setAttr rep a) (joins : joined' = if s.hasAttrs rep then joined ++ [a] else joined)
  /-- A domain narrows the one that is there. -/
  | narrowed {rep : Var} {c d : Stamped DomainFact} {u : Subst} (is_domain : a = .domain c)
      (leads : s.walk (.var keep) = .var rep) (at_rep : (s.attributes rep).domain = some d)
      (run : s.solveReduced rep c.val.domain = .ok u) (back : t = u ∨ t = u.putBack rep a.name)
      (joins : joined' = joined)
  /-- Propagators are attached together with those that are there, and run. -/
  | united {rep : Var} {p q : Stamped (List Propagator)} {u : Subst} (is_watchers : a = .watchers p)
      (leads : s.walk (.var keep) = .var rep) (at_rep : (s.attributes rep).watchers = some q)
      (run : (s.attachUnion rep q p).solveWith (unionWatchers q.val p.val) = .ok u)
      (back : t = u ∨ t = u.putBack rep a.name) (joins : joined' = joined)
  /-- The variable has a value, on which the attribute is consulted. -/
  | consulted (value : ∀ rep, s.walk (.var keep) ≠ .var rep)
      (run : s.validate keep (s.walk (.var keep)) a = .ok t)

theorem Suits.moves {C : Propagator → Prop} {keep : Var} {a : Attribute} (suits : s.Suits C keep a)
    {joined joined' : List Attribute} (run : Subst.moveAttr keep (s, joined) a = .ok (t, joined')) :
    s.Moves keep joined a t joined' := by
  by_cases free : ∃ rep, s.walk (.var keep) = .var rep
  · obtain ⟨rep, leads⟩ := free
    cases found : s.getAttr rep a.name with
    | none =>
      unfold Subst.moveAttr at run
      simp only [leads, found] at run
      cases run
      exact .taken leads found rfl rfl
    | some existing =>
      have name := Attributes.name_of_get? found
      cases a with
      | domain c =>
        cases existing with
        | domain d =>
          obtain ⟨joins, u, reduced, back⟩ := moveAttr_existing (a := .domain c)
            (r := s.solveReduced rep c.val.domain) leads found rfl run
          exact .narrowed rfl leads (getAttr_domain_iff.mp found) reduced back joins
        | _ => cases name
      | watchers p =>
        cases existing with
        | watchers q =>
          obtain ⟨joins, u, solved, back⟩ := moveAttr_existing (a := .watchers p)
            (r := (s.attachUnion rep q p).solveWith (unionWatchers q.val p.val)) leads found rfl run
          exact .united rfl leads (getAttr_watchers_iff.mp found) solved back joins
        | _ => cases name
      | _ => exact suits.elim
  · have answer := moveAttr_eq keep s joined a
    rw [run] at answer
    split at answer
    · rename_i rep leads
      exact absurd ⟨rep, leads⟩ free
    · exact .consulted (fun rep leads => free ⟨rep, leads⟩) answer.symm

/-- An attribute that moves to a variable adds what it says of that variable. -/
theorem OrderlyIn.moveAttr (h : s.OrderlyIn K T) (ints : ∀ n, isValue n = true → T (.int n))
    {keep : Var} (joined : List Attribute) {a : Attribute} (suits : s.Suits K.known keep a) :
    s.Adds K T (fun θ => a.HoldsAt θ keep) (Prod.fst <$> Subst.moveAttr keep (s, joined) a) := by
  rw [moveAttr_eq]
  have walked (θ : Var → Term) (agrees : s.Agrees θ) : θ keep = (s.walk (.var keep)).expand θ :=
    (agrees.expand_walk (.var keep)).symm
  split
  · rename_i rep leads
    have unbound := h.orderly.acyclic.get?_of_walk leads
    have here : s.walk (.var rep) = s.walk (.var keep) := by
      rw [leads, walk_var_of_unbound unbound]
    have suits_rep := suits.congr here
    rw [leads] at walked
    have same (θ : Var → Term) (admitted : K.readings θ ∧ s.Admits θ) :
        a.HoldsAt θ rep ↔ a.HoldsAt θ keep :=
      a.holdsAt_congr (walked θ admitted.2.binding).symm
    refine Solves.congr (E := fun θ => a.HoldsAt θ rep) ?_ same
    split
    · rename_i missing
      refine h.setAttr unbound (suits_rep.mono fun p known => .inl known) fun b found => ?_
      rw [missing] at found
      cases found
    · rename_i existing found
      obtain ⟨r, combined, added⟩ := h.combine ints unbound found suits_rep
      rw [combined, bind_assoc]
      refine (added.bind (G := fun _ => True) fun t good ext => ?_).congr
        fun θ _ => and_iff_left trivial
      show t.Adds K T (fun _ => True) (if t.walkVar rep = some rep then _ else _)
      split
      · have back := good.putBack rep a.name
        unfold Subst.putBack at back
        split at back
        · exact back
        · exact back
      · exact .ok good fun θ _ => trivial
  · rename_i not_var
    refine h.validate ints (fun w same => not_var w same) ?_ walked suits
    rcases s.walk_eq_or_bound (.var keep) with stays | ⟨u, bound⟩
    · exact absurd stays (not_var keep)
    · exact h.orderly.sized u _ bound

/-- Propagators that are run again add nothing. -/
theorem OrderlyIn.settleAt (h : s.OrderlyIn K T) (ints : ∀ n, isValue n = true → T (.int n))
    (keep : Var) (a : Attribute) : s.Adds K T (fun _ => True) (Subst.settleAt keep s a) := by
  have recheck (v : Var) : s.Adds K T (fun _ => True) (s.recheck v) := by
    unfold Subst.recheck
    split
    · rename_i c b _ found
      have known : s.OrderlyIn { K with known := s.Carries K } T := h.mono rfl fun p carries => carries
      refine (adds_of_carries (known.solveWith ints fun p mem => ?_)).congr fun θ admitted => ?_
      · exact .inr ⟨v, mem_storedWatchers_iff.mpr ⟨b, found, mem⟩⟩
      · exact iff_true_intro (admitted.2.watchers v b found)
    · exact .ok h fun θ _ => trivial
  unfold Subst.settleAt
  split
  · unfold Subst.settle
    split
    · exact recheck _
    · exact recheck _
    · exact .ok h fun θ _ => trivial
  · exact .ok h fun θ _ => trivial

theorem OrderlyIn.settleAll (ints : ∀ n, isValue n = true → T (.int n)) (keep : Var)
    (joined : List Attribute) : ∀ s : Subst, s.OrderlyIn K T →
      s.Adds K T (fun _ => True) (joined.foldlM (Subst.settleAt keep) s) := by
  induction joined with
  | nil => exact fun s h => .ok h fun θ _ => trivial
  | cons a joined ih =>
    intro s h
    rw [List.foldlM_cons]
    exact ((h.settleAt ints keep a).bind fun t good _ => ih t good).congr fun θ _ => and_self_iff

/-- Settling an attribute changes nothing, or it runs the propagators of a variable again. -/
theorem settleAt_cases {keep : Var} {a : Attribute} (run : Subst.settleAt keep s a = .ok t) :
    t = s ∨ ∃ v ps, (s.attributes v).watchers = some ps ∧ s.solveWith ps.val = .ok t := by
  have recheck (v : Var) (run : s.recheck v = .ok t) :
      t = s ∨ ∃ v ps, (s.attributes v).watchers = some ps ∧ s.solveWith ps.val = .ok t := by
    unfold Subst.recheck at run
    split at run
    · rename_i ps _ at_v
      exact .inr ⟨v, ps, at_v, run⟩
    · cases run
      exact .inl rfl
  unfold Subst.settleAt at run
  split at run
  · unfold Subst.settle at run
    split at run
    · exact recheck _ run
    · exact recheck _ run
    · cases run
      exact .inl rfl
  · cases run
    exact .inl rfl

/-- What is kept where stored propagators are run again, settling attributes keeps. -/
theorem settleAll_keeps {Q : Subst → Prop} (rerun : ∀ {s t v ps}, Q s → (s.attributes v).watchers = some ps →
      s.solveWith ps.val = .ok t → Q t)
    {keep : Var} (joined : List Attribute) (holds : Q s) (run : joined.foldlM (Subst.settleAt keep) s = .ok t) : Q t :=
  foldlM_keeps joined (fun _ _ _ _ holds run => by
    rcases settleAt_cases run with rfl | ⟨v, ps, at_v, ran⟩
    · exact holds
    · exact rerun holds at_v ran) holds run

theorem OrderlyIn.settleAll_keeps {Q : Subst → Prop} (h : s.OrderlyIn K T)
    (ints : ∀ n, isValue n = true → T (.int n))
    (rerun : ∀ {s t v ps}, s.OrderlyIn { K with known := s.Carries K } T → Q s →
      (s.attributes v).watchers = some ps → s.solveWith ps.val = .ok t → Q t)
    {keep : Var} (joined : List Attribute) (holds : Q s) (run : joined.foldlM (Subst.settleAt keep) s = .ok t) :
    Q t := by
  refine (Subst.settleAll_keeps (Q := fun s => s.OrderlyIn K T ∧ Q s) (fun {s} _ _ _ ⟨good, holds⟩ at_v run => ?_)
    joined ⟨h, holds⟩ run).2
  have known : s.OrderlyIn { K with known := s.Carries K } T := good.mono rfl fun _ carries => carries
  have solved := adds_of_carries (known.solveWith ints (carries_of_watchers at_v))
  rw [run] at solved
  exact ⟨solved.1, rerun known holds at_v run⟩

/-- Moves attributes to a variable one after another, and settles those that have joined others. -/
def moveAll (s : Subst) (keep : Var) (moved joined : List Attribute) : Attempt Subst :=
  moved.foldlM (Subst.moveAttr keep) (s, joined) >>= fun (s, joined) => joined.foldlM (Subst.settleAt keep) s

theorem moveAll_cons (s : Subst) (keep : Var) (a : Attribute) (moved joined : List Attribute) :
    s.moveAll keep (a :: moved) joined =
      Subst.moveAttr keep (s, joined) a >>= fun r => r.1.moveAll keep moved r.2 := by
  rw [moveAll, List.foldlM_cons, bind_assoc]
  rfl

/-- Attributes that move one after another, and are then settled. -/
theorem OrderlyIn.moveAll (ints : ∀ n, isValue n = true → T (.int n)) (keep : Var)
    (moved : List Attribute) : ∀ (s : Subst) (joined : List Attribute), s.OrderlyIn K T →
      (∀ a ∈ moved, s.Suits K.known keep a) →
      s.Adds K T (fun θ => ∀ a ∈ moved, a.HoldsAt θ keep) (s.moveAll keep moved joined) := by
  induction moved with
  | nil => exact fun s joined h _ => (settleAll ints keep joined s h).congr fun θ _ => by simp
  | cons a moved ih =>
    intro s joined h suits
    rw [moveAll_cons]
    refine ((h.moveAttr ints joined (suits a (by simp))).bind_of_map ?_).congr
      fun θ _ => List.forall_mem_cons.symm
    rintro ⟨t, joined⟩ good ext
    exact ih t joined good fun b mem => (suits b (by simp [mem])).of_extends good.orderly.acyclic ext

/-- One variable becomes another one, which takes its attributes over one by one. -/
def retire (s : Subst) (keep v : Var) : Attempt Subst :=
  (s.bindBare v (.var keep)).moveAll keep (s.attributes v).toList []

/-- Two unbound variables become one: each then stands for what the other one does,
    with the attributes of both. -/
theorem OrderlyIn.retire (h : s.OrderlyIn K T) (ints : ∀ n, isValue n = true → T (.int n))
    {keep v : Var} (retires : s.Retires keep v) (good : T (.var keep)) :
    s.Adds K T (fun θ => θ v = θ keep) (s.retire keep v) := by
  have moved := moveAll ints keep (s.attributes v).toList _ [] (h.bindRetired retires good) fun a mem =>
    h.orderly.suits_retired retires mem
  refine adds_of_carries (moved.rebase (.bindBare retires.unbound (.var keep)) fun θ => ?_)
  dsimp only
  rw [and_assoc, and_assoc]
  refine and_congr_right fun _ => Iff.trans (and_congr_right fun admits => ?_)
    (admits_bindBare (b := .var keep) retires.unbound)
  have same : θ v = θ keep := admits.binding v (.var keep) (by rw [get?_bindBare, if_pos rfl])
  exact forall₂_congr fun a _ => a.holdsAt_congr same.symm

theorem identify_eq (s : Subst) (v w : Var) :
    s.identify v w = if v.index < w.index then s.retire v w else s.retire w v := by
  unfold identify retire
  split <;> rfl

/-- Of two unbound variables the higher one becomes the lower one. -/
theorem identify_cases {v w : Var} (unbound_v : s.get? v = none) (unbound_w : s.get? w = none) (differ : v ≠ w) :
    s.Retires v w ∧ s.identify v w = s.retire v w ∨ s.Retires w v ∧ s.identify v w = s.retire w v := by
  rw [identify_eq]
  by_cases less : v.index < w.index
  · exact .inl ⟨⟨unbound_w, unbound_v, less⟩, if_pos less⟩
  · have apart : v.index ≠ w.index := fun same => differ (by cases v; cases w; exact congrArg Var.mk same)
    exact .inr ⟨⟨unbound_v, unbound_w, by omega⟩, if_neg less⟩

theorem OrderlyIn.identify (h : s.OrderlyIn K T) (ints : ∀ n, isValue n = true → T (.int n))
    {v w : Var} (unbound_v : s.get? v = none) (unbound_w : s.get? w = none) (differ : v ≠ w)
    (good_v : T (.var v)) (good_w : T (.var w)) :
    s.Adds K T (fun θ => θ v = θ w) (s.identify v w) := by
  obtain ⟨retires, same⟩ | ⟨retires, same⟩ := identify_cases unbound_v unbound_w differ
  · rw [same]
    exact (h.retire ints retires good_v).congr fun θ _ => eq_comm
  · rw [same]
    exact h.retire ints retires good_w

/-! ## Unification -/

/-- Bindings with domains and propagators follow the laws of binding. -/
theorem orderlyLaws (K : Scope) (W : Nat) :
    BindingLaws (OrderlyIn K fun t => t.width ≤ W ∧ t.Sized) (fun t θ => K.readings θ ∧ t.Admits θ)
      Fault.IsOverflow (fun t => t.width ≤ W ∧ t.Sized) W where
  parts {h t} good := by
    obtain ⟨below, sized_h, sized_t⟩ := good
    rw [Term.width_pair] at below
    exact ⟨⟨by omega, sized_h⟩, by omega, sized_t⟩
  below good := good.1
  acyclic h := h.orderly.acyclic
  bound h := h.bound
  agrees _ admitted := admitted.2.binding
  identify h unbound_v unbound_w differ good_v good_w :=
    h.identify (fun n value => ⟨Nat.zero_le W, value⟩) unbound_v unbound_w differ good_v good_w
  instantiate h unbound not_var _ good :=
    h.instantiate (fun n value => ⟨Nat.zero_le W, value⟩) unbound not_var good.2 good

/-- The terms of a substitution are sized and no wider than it is. -/
theorem Orderly.inWidth {W : Nat} (h : s.Orderly K) (wide : s.width ≤ W) :
    s.OrderlyIn K fun t => t.width ≤ W ∧ t.Sized :=
  ⟨h, fun v t found => ⟨Nat.le_trans (s.mentioned v t found).2 wide, h.sized v t found⟩⟩

/-- Unification adds just that the terms are equal to what a substitution says. -/
theorem Orderly.unify (h : s.Orderly K) {a b : Term} (sized_a : a.Sized) (sized_b : b.Sized) :
    Solves (Orderly K) (fun t θ => K.readings θ ∧ t.Admits θ) Fault.IsOverflow s
      (fun θ => a.expand θ = b.expand θ) (s.unify a b) := by
  have solved := (orderlyLaws K (max s.width (max a.width b.width))).unify (h.inWidth (by omega))
    ⟨by omega, sized_a⟩ ⟨by omega, sized_b⟩
  exact solved.mono fun t good => good.orderly

/-! ## What unification keeps -/

/-- What lasts while variables are bound: it is kept where a variable becomes another one,
    and where it takes a value. -/
structure Lasting (K : Scope) (Q : Subst → Prop) : Prop where
  retire : ∀ {T s t keep v}, s.OrderlyIn K T → (∀ n, isValue n = true → T (.int n)) → Q s →
    s.Retires keep v → T (.var keep) → s.retire keep v = .ok t → Q t
  instantiate : ∀ {T s t v b}, s.OrderlyIn K T → (∀ n, isValue n = true → T (.int n)) → Q s →
    s.get? v = none → (∀ w, b ≠ .var w) → b.Sized → T b → s.instantiate v b = .ok t → Q t

namespace Lasting

variable {Q : Subst → Prop}

theorem identify (lasting : Lasting K Q) (h : s.OrderlyIn K T) (ints : ∀ n, isValue n = true → T (.int n))
    (holds : Q s) {v w : Var} (unbound_v : s.get? v = none) (unbound_w : s.get? w = none) (differ : v ≠ w)
    (good_v : T (.var v)) (good_w : T (.var w)) (run : s.identify v w = .ok t) : Q t := by
  obtain ⟨retires, same⟩ | ⟨retires, same⟩ := identify_cases unbound_v unbound_w differ
  · exact lasting.retire h ints holds retires good_v (same ▸ run)
  · exact lasting.retire h ints holds retires good_w (same ▸ run)

/-- Where bindings follow the laws of binding, they go on doing so with what lasts. -/
theorem laws (lasting : Lasting K Q) (W : Nat) :
    BindingLaws (fun s => s.OrderlyIn K (fun t => t.width ≤ W ∧ t.Sized) ∧ Q s)
      (fun t θ => K.readings θ ∧ t.Admits θ) Fault.IsOverflow (fun t => t.width ≤ W ∧ t.Sized) W :=
  have laws := orderlyLaws K W
  have ints (n : Int) (value : isValue n = true) : (Term.int n).width ≤ W ∧ (Term.int n).Sized :=
    ⟨Nat.zero_le W, value⟩
  { laws with
    acyclic := fun h => laws.acyclic h.1
    bound := fun h => laws.bound h.1
    agrees := fun h => laws.agrees h.1
    identify := fun h unbound_v unbound_w differ good_v good_w =>
      (laws.identify h.1 unbound_v unbound_w differ good_v good_w).and fun _ run =>
        lasting.identify h.1 ints h.2 unbound_v unbound_w differ good_v good_w run
    instantiate := fun h unbound not_var good_v good =>
      (laws.instantiate h.1 unbound not_var good_v good).and fun _ run =>
        lasting.instantiate h.1 ints h.2 unbound not_var good.2 good run }

/-- Unification keeps what lasts while variables are bound. -/
theorem unify (lasting : Lasting K Q) (h : s.Orderly K) (holds : Q s) {a b : Term} (sized_a : a.Sized)
    (sized_b : b.Sized) (run : s.unify a b = .ok t) : Q t := by
  have solved := (lasting.laws (max s.width (max a.width b.width))).unify ⟨h.inWidth (by omega), holds⟩
    ⟨by omega, sized_a⟩ ⟨by omega, sized_b⟩
  rw [run] at solved
  exact solved.1.2

end Lasting

end ConstraintLogic.Subst
