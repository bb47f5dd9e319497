import ConstraintLogic.Proofs.Solver.AllowedIntegers
import ConstraintLogic.Proofs.Subst.WellFormed

/-!
# Allowed integers of classes

Variables that have been made one are a class, and what one of them has to be, all of
them have to be. Whatever goals are run on a substitution without bindings, no list of
allowed integers is forgotten on the way: a class that has a value has an integer of
each of its lists, and a class without value carries their intersection.

Results:
* `Subst.Honors`: the lists of a substitution are honored by a later one.
* `Subst.unify_keeps`: unification keeps what both ways to bind a variable keep.
* `Subst.Accounts.alias`: the class of two classes has the lists of both.
* `Goal.honors_of_reaches`: whatever goals reach honors the lists.
-/

namespace ConstraintLogic

namespace Subst

variable {o s t u : Subst} {v w : Var} {b : Term}

/-! ## Classes -/

/-- Bindings to variables lead from `v` to `w`. -/
def Chains (s : Subst) (v w : Var) : Prop := Relation.ReflTransGen (fun v w => s.get? v = some (.var w)) v w

/-- Bindings to variables lead from both variables to one: they are of one class. -/
def Classmates (s : Subst) (v w : Var) : Prop := ∃ r, s.Chains v r ∧ s.Chains w r

theorem Chains.walk (h : s.Chains v w) (acyclic : s.Acyclic) : s.walk (.var v) = s.walk (.var w) := by
  induction h with
  | refl => rfl
  | tail _ step ih => rw [ih, acyclic.walk_of_bound step]

theorem Classmates.walk (h : s.Classmates v w) (acyclic : s.Acyclic) : s.walk (.var v) = s.walk (.var w) := by
  obtain ⟨r, left, right⟩ := h
  rw [left.walk acyclic, right.walk acyclic]

theorem chains_of_walkFor (n : Nat) : ∀ v, s.walkFor n (.var v) = .var w → s.Chains v w := by
  induction n with
  | zero =>
    intro v ends
    cases ends
    exact .refl
  | succ n ih =>
    intro v ends
    rw [walkFor] at ends
    split at ends
    · rename_i b bound
      cases b with
      | var u => exact .head bound (ih u ends)
      | _ =>
        rw [walkFor_of_not_var (by simp)] at ends
        cases ends
    · cases ends
      exact .refl

/-- The variables of the class of an unbound variable stand for it. -/
theorem classmates_iff_of_unbound (acyclic : s.Acyclic) (unbound : s.get? v = none) :
    s.Classmates v w ↔ s.walk (.var w) = .var v := by
  constructor
  · intro same
    rw [← same.walk acyclic]
    exact walk_var_of_unbound unbound
  · exact fun ends => ⟨v, .refl, chains_of_walkFor _ w ends⟩

/-- The list, if there is one, has the integer. -/
def Passes (l : Option (Stamped (List Int))) (n : Int) : Prop := ∀ ns, l = some ns → n ∈ ns.val

/-- What the second substitution has made of the variables of the first one honors the
    lists there: a variable that stands for a value stands for an integer that all lists
    of its class have, and an unbound variable has a list just if a list is in its class,
    namely one with the integers that all of these have. -/
structure Honors (o t : Subst) : Prop where
  value : ∀ v w ns, t.Classmates v w → (o.attributes w).allowed = some ns →
    (∀ u, t.walk (.var v) ≠ .var u) → ∃ n ∈ ns.val, t.walk (.var v) = .int n
  listed : ∀ v, t.get? v = none → (∃ w ns, t.Classmates v w ∧ (o.attributes w).allowed = some ns) →
    ∃ ms, (t.attributes v).allowed = some ms ∧
      ∀ n, n ∈ ms.val ↔ ∀ w ns, t.Classmates v w → (o.attributes w).allowed = some ns → n ∈ ns.val
  unlisted : ∀ v, t.get? v = none → (∀ w, t.Classmates v w → (o.attributes w).allowed = none) →
    (t.attributes v).allowed = none

/-! ## The lists of a class -/

/-- The list has the integers that pass the lists which `o` has on the variables that
    stand for `v`, and it is missing if they have none. -/
structure Gathers (o s : Subst) (v : Var) (l : Option (Stamped (List Int))) : Prop where
  none_iff : l = none ↔ ∀ w, s.walk (.var w) = .var v → (o.attributes w).allowed = none
  passes_iff : ∀ n, Passes l n ↔ ∀ w, s.walk (.var w) = .var v → Passes (o.attributes w).allowed n

/-- The lists of `o` are accounted for: a variable with a list that stands for a value
    stands for an integer of the list, and an unbound variable has gathered its lists. -/
structure Accounts (o s : Subst) : Prop extends Tame s where
  value : ∀ v ns, (o.attributes v).allowed = some ns → (∀ w, s.walk (.var v) ≠ .var w) →
    ∃ n ∈ ns.val, s.walk (.var v) = .int n
  gathers : ∀ v, s.get? v = none → o.Gathers s v (s.attributes v).allowed

/-- A substitution without bindings accounts for its own lists. -/
theorem accounts_self (unbound : ∀ v, s.get? v = none) (zero : ∀ v, (s.attributes v).zero = none) :
    s.Accounts s := by
  have alone (v : Var) : s.walk (.var v) = .var v := walk_var_of_unbound (unbound v)
  refine ⟨⟨⟨fun _ => 0, fun v w ⟨b, bound, _⟩ => ?_⟩, zero⟩, fun v ns _ not_var => ?_, fun v _ => ?_⟩
  · rw [unbound] at bound
    cases bound
  · exact absurd (alone v) (not_var v)
  · constructor <;> simp [alone]

theorem Accounts.honors (h : o.Accounts s) : o.Honors s where
  value v w ns same listed not_var := by
    rw [same.walk h.acyclic] at not_var ⊢
    exact h.value w ns listed not_var
  listed v unbound some_list := by
    obtain ⟨none_iff, passes_iff⟩ := h.gathers v unbound
    simp only [classmates_iff_of_unbound h.acyclic unbound] at some_list ⊢
    cases found : (s.attributes v).allowed with
    | none =>
      obtain ⟨w, ns, same, listed⟩ := some_list
      rw [none_iff.mp found w same] at listed
      cases listed
    | some ms =>
      rw [found] at passes_iff
      refine ⟨ms, rfl, fun n => ?_⟩
      have here : Passes (some ms) n ↔ n ∈ ms.val := by simp [Passes]
      rw [← here, passes_iff]
      exact ⟨fun all w ns same => all w same ns, fun all w same ns => all w ns same⟩
  unlisted v unbound none_listed := by
    simp only [classmates_iff_of_unbound h.acyclic unbound] at none_listed
    exact (h.gathers v unbound).none_iff.mpr none_listed

/-! ## Binding -/

/-- Where bindings are added to terms that are no variables, the variables that are still
    unbound have the classes that they had. -/
theorem Obeys.walk_eq_var_iff (h : s.Obeys t) (acyclic : s.Acyclic) (unbound : t.get? v = none) :
    t.walk (.var w) = .var v ↔ s.walk (.var w) = .var v := by
  rw [← h.acyclic.walk_walk h.extends_]
  constructor
  · intro ends
    cases found : s.walk (.var w) with
    | var r =>
      rw [found] at ends
      cases bound : t.get? r with
      | none =>
        rw [walk_var_of_unbound bound] at ends
        exact ends
      | some c =>
        obtain ⟨not_var, _⟩ := h.bound r c (acyclic.get?_of_walk found) bound
        rw [h.acyclic.walk_of_bound bound, walk_of_not_var not_var] at ends
        exact absurd ends (not_var v)
    | _ =>
      rw [found, walk_of_not_var (by simp)] at ends
      cases ends
  · intro ends
    rw [ends]
    exact walk_var_of_unbound unbound

/-- Lists stay accounted for where each new binding is permitted by a list. -/
theorem Accounts.obeys (h : o.Accounts s) (obeys : s.Obeys t) : o.Accounts t where
  acyclic := obeys.acyclic
  zero := obeys.zero
  value v ns listed not_var := by
    rw [← obeys.acyclic.walk_walk obeys.extends_] at not_var ⊢
    cases found : s.walk (.var v) with
    | var r =>
      rw [found] at not_var
      have unbound := h.acyclic.get?_of_walk found
      cases bound : t.get? r with
      | none =>
        exact absurd (walk_var_of_unbound bound) (not_var r)
      | some c =>
        obtain ⟨is_term, permits⟩ := obeys.bound r c unbound bound
        rw [obeys.acyclic.walk_of_bound bound, walk_of_not_var is_term]
        cases here : (s.attributes r).allowed with
        | none =>
          rw [(h.gathers r unbound).none_iff.mp here v found] at listed
          cases listed
        | some ms =>
          obtain ⟨n, mem, same⟩ := permits ms here
          have passes := ((h.gathers r unbound).passes_iff n).mp (by simpa [here, Passes] using mem) v found
          exact ⟨n, passes ns listed, same⟩
    | _ =>
      rw [walk_of_not_var (by simp), ← found]
      exact h.value v ns listed (by simp [found])
  gathers v unbound := by
    have before : s.get? v = none := by
      cases found : s.get? v with
      | none => rfl
      | some c =>
        rw [obeys.extends_ v c found] at unbound
        cases unbound
    rw [obeys.kept v unbound]
    obtain ⟨none_iff, passes_iff⟩ := h.gathers v before
    constructor <;> simpa only [obeys.walk_eq_var_iff h.acyclic unbound]

/-- Attributes of the other kinds are consulted on a value. -/
theorem Tame.validateAll (h : s.Tame) {l : List Attribute} (others : ∀ a ∈ l, a.IsOther)
    (run : l.foldlM (fun s a => s.validate v b a) s = .ok t) : s.Obeys t :=
  foldlM_keeps (J := s.Obeys) l (fun _ a mem _ obeys run => obeys.trans (obeys.toTame.validate (others a mem) run))
    (.refl h) run

/-- The list comes first among the attributes of a variable. -/
theorem Tame.toList_attributes (h : s.Tame) (v : Var) : ∃ rest : List Attribute, (∀ a ∈ rest, a.IsOther) ∧
    (s.attributes v).toList = ((s.attributes v).allowed.map Attribute.allowed).toList ++ rest := by
  refine ⟨[AttrName.domain, .watchers, .tag, .zero].filterMap (s.attributes v).get?, fun a mem => ?_, ?_⟩
  · obtain ⟨name, mem, found⟩ := List.mem_filterMap.mp mem
    rw [Attribute.IsOther, Attributes.name_of_get? found]
    refine ⟨fun same => ?_, fun same => ?_⟩
    · rw [same] at mem
      simp at mem
    · rw [same, Attributes.get?, h.zero] at found
      cases found
  · unfold Attributes.toList AttrName.all
    rw [List.filterMap_cons, Attributes.get?]
    cases (s.attributes v).allowed <;> rfl

/-- A value that a variable takes is permitted by its list, whichever attribute decides. -/
theorem Tame.instantiate (h : s.Tame) (unbound : s.get? v = none) (not_var : ∀ w, b ≠ .var w)
    (run : s.instantiate v b = .ok t) : s.Obeys t := by
  unfold Subst.instantiate at run
  dsimp only at run
  split at run
  · cases run
  rename_i fresh
  split at run
  · rename_i a found
    refine h.validate ?_ run
    have delegates := List.find?_some found
    have here := Attributes.mem_toList.mp (List.mem_of_find?_eq_some found)
    cases a with
    | domain a => exact ⟨nofun, nofun⟩
    | zero a =>
      rw [Attribute.name, Attributes.get?, h.zero] at here
      cases here
    | _ => cases delegates
  · obtain ⟨rest, others, list⟩ := h.toList_attributes v
    have bare (permits : s.Permits v b) : s.Obeys (s.bindBare v b) :=
      h.bindBare unbound (by simpa using fresh) not_var permits
    rw [list] at run
    cases listed : (s.attributes v).allowed with
    | none =>
      rw [listed] at run
      have obeys := bare fun ns found => by rw [listed] at found; cases found
      exact obeys.trans (obeys.toTame.validateAll others run)
    | some ns =>
      rw [listed] at run
      obtain ⟨u, first, later⟩ := exists_of_bind_ok (List.foldlM_cons.symm.trans run)
      unfold Subst.validate at first
      dsimp only at first
      split at first
      · rename_i n int
        split at first
        · rename_i mem
          cases first
          have obeys := bare fun ms found => by
            rw [listed] at found
            cases found
            exact ⟨n, by simpa using mem, Term.eq_int_of_asInt? int⟩
          exact obeys.trans (obeys.toTame.validateAll others later)
        · cases first
      · cases first

/-! ## Making two variables one -/

/-- The list has the integers that pass both lists, and is missing if both are. -/
structure Combines (l m k : Option (Stamped (List Int))) : Prop where
  none_iff : k = none ↔ l = none ∧ m = none
  passes_iff : ∀ n, Passes k n ↔ Passes l n ∧ Passes m n

/-- The variable `w` has become `v`, with the lists of both; all else is as before. -/
structure Joins (v w : Var) (s t : Subst) : Prop where
  get? : ∀ x, t.get? x = if w = x then some (.var v) else s.get? x
  zero : ∀ x, (t.attributes x).zero = none
  others : ∀ x, x ≠ v → t.get? x = none → (t.attributes x).allowed = (s.attributes x).allowed
  combines : Combines (s.attributes v).allowed (s.attributes w).allowed (t.attributes v).allowed

theorem Joins.acyclic (h : Joins v w s t) (acyclic : s.Acyclic) (unbound_v : s.get? v = none)
    (unbound_w : s.get? w = none) (differ : w ≠ v) : t.Acyclic := by
  have fresh : (s.dropAttrs w).occurs w (.var v) = false := by
    rw [occurs_dropAttrs]
    exact occurs_var_of_ne unbound_v differ
  obtain ⟨rank, falls⟩ := Acyclic.bind (s := s.dropAttrs w) acyclic unbound_w fresh
  refine ⟨rank, fun x y ⟨c, bound, mem⟩ => falls x y ⟨c, ?_, mem⟩⟩
  rw [get?_bind, ← bound, h.get? x]
  rfl

/-- The class of both has the lists of both. -/
theorem Accounts.alias (h : o.Accounts s) (joins : Joins v w s t) (unbound_v : s.get? v = none)
    (unbound_w : s.get? w = none) (differ : w ≠ v) : o.Accounts t := by
  have acyclic := joins.acyclic h.acyclic unbound_v unbound_w differ
  have ext : s.Extends t := fun x c bound => by
    rw [joins.get?, if_neg fun same => ?_, bound]
    rw [same, bound] at unbound_w
    cases unbound_w
  have unbound_v' : t.get? v = none := by rw [joins.get?, if_neg differ, unbound_v]
  have stays {x : Var} (unbound : t.get? x = none) : t.walk (.var x) = .var x :=
    walk_var_of_unbound unbound
  -- Only what stood for `w` stands for something else now, namely for `v`.
  have walk (x : Var) : t.walk (.var x) = if s.walk (.var x) = .var w then .var v else s.walk (.var x) := by
    rw [← acyclic.walk_walk ext]
    split
    · rename_i ends
      rw [ends, acyclic.walk_of_bound (by rw [joins.get?, if_pos rfl]), stays unbound_v']
    · rename_i other
      refine walk_of_unbound fun u ends => ?_
      rw [joins.get?, if_neg fun same => other (by rw [ends, same])]
      exact h.acyclic.get?_of_walk ends
  refine ⟨⟨acyclic, joins.zero⟩, fun x ns listed not_var => ?_, fun x unbound => ?_⟩
  · rw [walk] at not_var ⊢
    split at not_var
    · exact absurd rfl (not_var v)
    · rename_i other
      rw [if_neg other]
      exact h.value x ns listed not_var
  · by_cases same : x = v
    · subst same
      have left := h.gathers x unbound_v
      have right := h.gathers w unbound_w
      have ends (y : Var) : t.walk (.var y) = .var x ↔ s.walk (.var y) = .var x ∨ s.walk (.var y) = .var w := by
        rw [walk]
        split
        · rename_i to_w
          exact ⟨fun _ => .inr to_w, fun _ => rfl⟩
        · rename_i other
          exact ⟨.inl, fun either => either.resolve_right other⟩
      constructor
      · simp only [joins.combines.none_iff, left.none_iff, right.none_iff, ends, or_imp, forall_and]
      · simp only [joins.combines.passes_iff, left.passes_iff, right.passes_iff, ends, or_imp, forall_and, implies_true]
    · have apart : x ≠ w := fun eq => by
        rw [eq, joins.get?, if_pos rfl] at unbound
        cases unbound
      have before : s.get? x = none := by
        rw [joins.get?, if_neg (Ne.symm apart)] at unbound
        exact unbound
      have ends (y : Var) : t.walk (.var y) = .var x ↔ s.walk (.var y) = .var x := by
        rw [walk]
        split
        · rename_i to_w
          rw [to_w]
          simp [Ne.symm same, Ne.symm apart]
        · exact Iff.rfl
      obtain ⟨none_iff, passes_iff⟩ := h.gathers x before
      rw [joins.others x same unbound]
      constructor <;> simpa only [ends]

/-- A list that moves to an unbound variable is combined with the list there. -/
theorem moveAttr_allowed (unbound : s.get? v = none) {ns : Stamped (List Int)} {joined : List Attribute}
    {state : Subst × List Attribute} (run : moveAttr v (s, joined) (.allowed ns) = .ok state) :
    (∀ x, state.1.get? x = s.get? x) ∧ (∀ x, (state.1.attributes x).zero = (s.attributes x).zero) ∧
      (∀ x, x ≠ v → (state.1.attributes x).allowed = (s.attributes x).allowed) ∧
      Combines (s.attributes v).allowed (some ns) (state.1.attributes v).allowed := by
  have stays : s.walk (.var v) = .var v := walk_var_of_unbound unbound
  have set (t : Subst) (same : ∀ x, t.get? x = s.get? x ∧ t.attributes x = s.attributes x) (ms : Stamped (List Int)) :
      (∀ x, (t.setAttr v (.allowed ms)).get? x = s.get? x) ∧
      (∀ x, ((t.setAttr v (.allowed ms)).attributes x).zero = (s.attributes x).zero) ∧
      (∀ x, x ≠ v → ((t.setAttr v (.allowed ms)).attributes x).allowed = (s.attributes x).allowed) ∧
      ((t.setAttr v (.allowed ms)).attributes v).allowed = some ms := by
    simp only [attributes_setAttr, (same _).2]
    refine ⟨fun x => (same x).1, fun x => ?_, fun x other => by rw [if_neg (Ne.symm other)], ?_⟩
    · split <;> rfl
    · simp [Attributes.set]
  have moved : Prod.fst <$> moveAttr v (s, joined) (.allowed ns) = .ok state.1 := by
    rw [run]
    rfl
  generalize state.1 = t at moved ⊢
  rw [moveAttr_eq, stays] at moved
  dsimp only at moved
  cases here : (s.attributes v).allowed with
  | none =>
    have missing : s.getAttr v (Attribute.allowed ns).name = none := by
      simp [getAttr, Attribute.name, Attributes.get?, here]
    rw [missing] at moved
    cases moved
    obtain ⟨get, zero, others, list⟩ := set s (fun _ => ⟨rfl, rfl⟩) ns
    refine ⟨get, zero, others, ?_⟩
    rw [list]
    constructor <;> simp [Passes]
  | some ms =>
    have existing : s.getAttr v (Attribute.allowed ns).name = some (.allowed ms) := by
      simp [getAttr, Attribute.name, Attributes.get?, here]
    rw [existing] at moved
    dsimp only [combine] at moved
    split at moved
    · cases moved
    · change (if (s.stamped (ms.val.filter ns.val.contains)).2.walkVar v = some v then _ else _ : Attempt Subst) = _ at moved
      have alone : (s.stamped (ms.val.filter ns.val.contains)).2.walkVar v = some v := by
        rw [walkVar, walk_congr (s := s) (t := (s.stamped (ms.val.filter ns.val.contains)).2) rfl, stays]
        rfl
      rw [if_pos alone] at moved
      cases moved
      obtain ⟨get, zero, others, list⟩ := set (s.stamped (ms.val.filter ns.val.contains)).2 (fun _ => ⟨rfl, rfl⟩)
        (s.stamped (ms.val.filter ns.val.contains)).1
      refine ⟨get, zero, others, ?_⟩
      rw [list]
      constructor <;> simp [Passes]

/-- Two unbound variables become one: the list moves first, and what moves later obeys
    what it has become. -/
theorem Accounts.retire (h : o.Accounts s) (retires : s.Retires v w) (run : s.retire v w = .ok t) : o.Accounts t := by
  have differ := retires.differ
  obtain ⟨⟨m, joined⟩, moved, settled⟩ := exists_of_bind_ok run
  have bare (x : Var) : (s.bindBare w (.var v)).get? x = if w = x then some (.var v) else s.get? x :=
    get?_bindBare s w x _
  have zero (x : Var) : ((s.bindBare w (.var v)).attributes x).zero = none := by
    rw [attributes_bindBare]
    split
    · rfl
    · exact h.zero x
  have kept (x : Var) (other : w ≠ x) : ((s.bindBare w (.var v)).attributes x).allowed = (s.attributes x).allowed := by
    rw [attributes_bindBare, if_neg other]
  have apart (x : Var) (unbound : (s.bindBare w (.var v)).get? x = none) : w ≠ x := fun same => by
    rw [bare, if_pos same] at unbound
    cases unbound
  suffices ∃ (rest : List Attribute) (u : Subst) (js : List Attribute), o.Accounts u ∧ (∀ a ∈ rest, a.IsOther) ∧
      rest.foldlM (moveAttr v) (u, js) = .ok (m, joined) by
    obtain ⟨rest, u, js, accounts, others, later⟩ := this
    have obeys := accounts.toTame.moveAll others later
    exact (accounts.obeys obeys).obeys (obeys.toTame.settleAll settled)
  obtain ⟨rest, others, list⟩ := h.toTame.toList_attributes w
  rw [list] at moved
  cases listed : (s.attributes w).allowed with
  | none =>
    rw [listed] at moved
    refine ⟨rest, _, [], h.alias ⟨bare, zero, fun x _ unbound => kept x (apart x unbound), ?_⟩ retires.unbound_keep retires.unbound
      differ, others, moved⟩
    rw [kept v differ, listed]
    constructor <;> simp [Passes]
  | some ns =>
    rw [listed] at moved
    obtain ⟨⟨u, js⟩, first, later⟩ := exists_of_bind_ok (List.foldlM_cons.symm.trans moved)
    obtain ⟨get, zero', others', combines⟩ := moveAttr_allowed retires.get?_keep first
    rw [kept v differ] at combines
    refine ⟨rest, u, js, h.alias ⟨fun x => (get x).trans (bare x), fun x => (zero' x).trans (zero x), fun x other unbound => ?_,
      listed ▸ combines⟩ retires.unbound_keep retires.unbound differ, others, later⟩
    rw [get] at unbound
    rw [others' x other, kept x (apart x unbound)]

theorem Accounts.identify (h : o.Accounts s) (unbound_v : s.get? v = none) (unbound_w : s.get? w = none)
    (differ : v ≠ w) (run : s.identify v w = .ok t) : o.Accounts t := by
  obtain ⟨retires, same⟩ | ⟨retires, same⟩ := identify_cases unbound_v unbound_w differ
  · exact h.retire retires (same ▸ run)
  · exact h.retire retires (same ▸ run)

/-! ## Unification -/

section Keeps

variable {P : Subst → Prop} {T : Term → Prop} {E : Subst → Var → Prop} (parts : ∀ {h x}, T (.pair h x) → T h ∧ T x)
  (walked : ∀ {s a}, P s → T a → T (s.walk a) ∧ ∀ v, s.walk a = .var v → E s v)
  (identify : ∀ {s t v w}, P s → E s v → E s w → v ≠ w → s.identify v w = .ok t → P t)
  (instantiate : ∀ {s t v b}, P s → E s v → T b → (∀ w, b ≠ .var w) → s.instantiate v b = .ok t → P t)

include identify instantiate in
theorem unifyEnds_keeps {a b : Term} (good : P s) (left : T a ∧ ∀ v, a = .var v → E s v)
    (right : T b ∧ ∀ v, b = .var v → E s v) (run : s.unifyEnds a b = .ok t) : P t := by
  unfold unifyEnds at run
  split at run
  · cases run
    exact good
  rename_i differ
  split at run
  · rename_i v w
    exact identify good (left.2 v rfl) (right.2 w rfl) (fun same => differ (by rw [same])) run
  · rename_i b v not_var
    exact instantiate good (left.2 v rfl) right.1 not_var run
  · rename_i a w not_var
    exact instantiate good (right.2 w rfl) left.1 not_var run
  · cases run

include parts walked identify instantiate in
theorem unifyWith_keeps {cross : Term → Term → Subst → Attempt Subst}
    (crosses : ∀ {a b s t}, P s → T a → T b → cross a b s = .ok t → P t) (a : Term) :
    ∀ {b s t}, P s → T a → T b → unifyWith cross a b s = .ok t → P t := by
  have single {a b : Term} {s t : Subst} (not_pair : ∀ x y, a ≠ .pair x y) (good : P s) (ta : T a) (tb : T b)
      (run : unifyWith cross a b s = .ok t) : P t := by
    rw [BindingLaws.unifyWith_of_not_pair not_pair] at run
    have left := walked good ta
    have right := walked good tb
    split at run
    · rename_i same same'
      rw [same] at left
      rw [same'] at right
      exact crosses good left.1 right.1 run
    · exact unifyEnds_keeps identify instantiate good left right run
  induction a with
  | pair h x ihh ihx =>
    intro b s t good ta tb run
    have right := walked good tb
    rw [unifyWith] at run
    split at run
    · cases run
      exact good
    · split at run
      · rename_i h' x' same
        rw [same] at right
        obtain ⟨u, first, rest⟩ := exists_of_bind_ok run
        have heads := ihh good (parts ta).1 (parts right.1).1 first
        exact ihx heads (parts ta).2 (parts right.1).2 rest
      · exact unifyEnds_keeps identify instantiate good ⟨ta, by simp⟩ right run
  | var v => exact fun good ta tb run => single (by simp) good ta tb run
  | atom c => exact fun good ta tb run => single (by simp) good ta tb run
  | nil => exact fun good ta tb run => single (by simp) good ta tb run

include parts walked identify instantiate in
/-- Unification keeps what both ways to bind a variable keep. -/
theorem unify_keeps {a b : Term} (good : P s) (ta : T a) (tb : T b) (run : s.unify a b = .ok t) : P t := by
  have below (n : Nat) : ∀ {a b : Term} {s t : Subst}, P s → T a → T b → unifyBelow n a b s = .ok t → P t := by
    induction n with
    | zero => exact fun _ _ _ run => by cases run
    | succ n ih => exact fun good ta tb run => unifyWith_keeps parts walked identify instantiate ih _ good ta tb run
  exact below _ good ta tb run

end Keeps

theorem Accounts.unify (h : o.Accounts s) {a b : Term} (run : s.unify a b = .ok t) : o.Accounts t :=
  unify_keeps (P := o.Accounts) (T := fun _ => True) (E := fun s v => s.get? v = none) (fun _ => ⟨trivial, trivial⟩)
    (fun good _ => ⟨trivial, fun _ ends => good.acyclic.get?_of_walk ends⟩) Accounts.identify
    (fun good unbound _ not_var run => good.obeys (good.toTame.instantiate unbound not_var run)) h trivial trivial run

end Subst

/-! ## Goals -/

/-- Whatever a goal yields, the lists stay accounted for. -/
theorem Goal.Yields.accounts {program : Program} {g : Goal} {o s t : Subst} (h : g.Yields program s t) :
    o.Accounts s → o.Accounts t := by
  induction h with
  | succeed => exact id
  | eq unified => exact fun good => good.unify unified
  | conj _ _ ih ih' => exact fun good => ih' (ih good)
  | disjLeft _ ih => exact ih
  | disjRight _ ih => exact ih
  | suspend _ ih => exact ih
  | @fresh n body s t _ ih =>
    have same : s.SameLists (s.freshMany n).2 := .refl s
    exact fun good => ih (good.obeys (same.obeys good.toTame))
  | call _ ih => exact ih
  | not => exact id
  | ifteYes _ _ ih ih' => exact fun good => ih' (ih good)
  | ifteNo _ ih => exact ih
  | once _ ih => exact ih
  | parLeft _ ih => exact ih
  | parRight _ ih => exact ih
  | always => exact id
  | @post r s t solved =>
    intro good
    have same : s.SameLists (s.stamped r).2 := .refl s
    have stamped := good.obeys (same.obeys good.toTame)
    exact stamped.obeys (stamped.toTame.solveWith solved)
  | posted solved => exact fun good => good.obeys (good.toTame.solveWith solved)
  | narrow solved => exact fun good => good.obeys (good.toTame.solveReduced solved)
  | label started leaf =>
    intro good
    have inv := Solver.invariant_rests good.acyclic
    obtain ⟨u, rests, written⟩ := inv.leaf (fun _ _ => trivial) leaf (inv.label (fun _ _ => trivial) _ (Solver.rests_new _) _ _ started)
    exact good.obeys (rests.obeys_toSubst? good.toTame written)
  | unlabeled => exact id
  | labelAll _ ih => exact ih
  | @reserve n body s t _ ih =>
    have same : s.SameLists { s with supply := s.supply + n } := .refl s
    exact fun good => ih (good.obeys (same.obeys good.toTame))

/-- From a substitution without bindings and without placeholders for zero, whatever its
    other attributes are, a search for a goal reaches nothing that forgets a list. -/
theorem Goal.honors_of_reaches {program : Program} {g : Goal} {s t : Subst} {n : Nat} {answers : Answers}
    (unbound : ∀ v, s.get? v = none) (zero : ∀ v, (s.attributes v).zero = none)
    (applied : g.apply (program.context n) s = .ok answers)
    (reached : answers.Reaches (program.context n).interp t) : s.Honors t :=
  ((Goal.yields_of_reaches applied reached).accounts (Subst.accounts_self unbound zero)).honors

namespace Subst

/-- The substitution with the attributes attached one after another. -/
def attachAll (s : Subst) (l : List (Var × Attribute)) : Subst := l.foldl (fun s e => s.setAttr e.1 e.2) s

theorem zero_attachAll (l : List (Var × Attribute)) : ∀ s : Subst, (∀ v, (s.attributes v).zero = none) →
    (∀ e ∈ l, e.2.name ≠ .zero) → ∀ v, ((s.attachAll l).attributes v).zero = none := by
  induction l with
  | nil => exact fun _ zero _ => zero
  | cons e l ih =>
    intro s zero others
    rw [List.forall_mem_cons] at others
    refine ih _ (fun v => ?_) others.2
    rw [attributes_setAttr]
    split
    · cases found : e.2 with
      | zero a => exact absurd (by rw [found]; rfl) others.1
      | _ => exact zero v
    · exact zero v

/-- `_0`, `_1` and `_2` have lists of allowed integers, `_2` and `_3` have domains. -/
def listed : Subst :=
  attachAll { (empty.freshMany 4).2 with supply := 5 }
    [(⟨0⟩, .allowed ⟨0, [1, 2, 3]⟩), (⟨1⟩, .allowed ⟨1, [3, 4, 2]⟩), (⟨2⟩, .allowed ⟨2, [2, 5]⟩),
      (⟨2⟩, .domain ⟨3, ⟨2⟩, .interval 5 9⟩), (⟨3⟩, .domain ⟨4, ⟨3⟩, .interval 1 4⟩)]

/-- `_0` and `_1` become one, and `_3 + 1 = _2` leaves one value to `_2` and `_3`. -/
def chosen : Goal := .conj (.eq (.var ⟨0⟩) (.var ⟨1⟩)) (.post (.plusConst ⟨3⟩ 1 ⟨2⟩))

theorem exists_chosen : ∃ t rest, chosen.apply (Program.context (fun _ _ => .fail) 0) listed = .ok (.cons t rest) ∧
    t.get? ⟨1⟩ = some (.var ⟨0⟩) ∧ (t.attributes ⟨0⟩).allowed.map Stamped.val = some [2, 3] ∧
    t.get? ⟨2⟩ = some (.int 5) := by
  let m := (listed.unify (.var ⟨0⟩) (.var ⟨1⟩)).toOption.getD empty
  let stamped := m.stamped (Relation.plusConst ⟨3⟩ 1 ⟨2⟩)
  let t := (stamped.2.solveWith [stamped.1]).toOption.getD empty
  have unified : listed.unify (.var ⟨0⟩) (.var ⟨1⟩) = .ok m := eq_ok_of_isSome (by decide +kernel)
  have posted : stamped.2.solveWith [stamped.1] = .ok t := eq_ok_of_isSome (by decide +kernel)
  have first : (Goal.eq (.var ⟨0⟩) (.var ⟨1⟩)).apply (Program.context (fun _ _ => .fail) 0) listed = .ok (.unit m) := by
    show Answers.ofAttempt (listed.unify (.var ⟨0⟩) (.var ⟨1⟩)) = _
    rw [unified]
    rfl
  have second : (Goal.post (.plusConst ⟨3⟩ 1 ⟨2⟩)).apply (Program.context (fun _ _ => .fail) 0) m = .ok (.unit t) := by
    show Answers.ofAttempt (stamped.2.solveWith [stamped.1]) = _
    rw [posted]
    rfl
  obtain ⟨rest, applied⟩ := apply_conj_of_unit first second
  exact ⟨t, rest, applied, by decide +kernel, by decide +kernel, by decide +kernel⟩

/-- The lists of `_0` and `_1` become one list on `_0`, and the value of `_2` is in its list. -/
theorem honors_chosen : ∃ t rest, (∀ v, listed.get? v = none) ∧ (∀ v, (listed.attributes v).zero = none) ∧
    chosen.apply (Program.context (fun _ _ => .fail) 0) listed = .ok (.cons t rest) ∧
    (t.attributes ⟨0⟩).allowed.map Stamped.val = some [2, 3] ∧ t.get? ⟨2⟩ = some (.int 5) ∧ listed.Honors t := by
  have unbound (v : Var) : listed.get? v = none := get?_empty v
  have zero : ∀ v, (listed.attributes v).zero = none :=
    zero_attachAll _ _ (fun v => congrArg Attributes.zero (attributes_empty v)) (by decide)
  obtain ⟨t, rest, applied, _, list, bound⟩ := exists_chosen
  exact ⟨t, rest, unbound, zero, applied, list, bound, Goal.honors_of_reaches unbound zero applied .here⟩

end Subst

end ConstraintLogic
