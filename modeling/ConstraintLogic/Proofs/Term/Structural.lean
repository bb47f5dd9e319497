import ConstraintLogic.Proofs.Report.Contents
import ConstraintLogic.Term.Sharing

/-!
# Equality and hashing are structural

Two handles agree when they show one term, whatever cells their pairs lie in: passing
by a shared cell is right because a cell holds one pair. The hash writes the tokens of
the term in pre-order, and a term can be read back from its tokens: put on a stack from
the last token to the first, a pair takes its head and its tail from the stack.

Results:
* `Handle.agreeAll_iff`: what the loop of the comparison decides.
* `Handle.hashAll_eq`: what the loop of the hash writes.
* `Term.tokens_append`: the tokens of a term tell the term, and where they end.
* `Handle.structural`: equality and hashing of handles are those of the terms they show.
-/

namespace ConstraintLogic

/-! ## Reading tokens back -/

namespace Term

/-- The token put back on a stack of terms: a pair takes its head and its tail off. -/
def restack : Token → List Term → List Term
  | .nil, stack => .nil :: stack
  | .atom a, stack => .atom a :: stack
  | .var v, stack => .var v :: stack
  | .pair, h :: t :: stack => .pair h t :: stack
  | .pair, stack => stack

/-- The terms that the tokens are the encodings of, one after the other. -/
def rebuild (tokens : List Token) : List Term := tokens.foldr restack []

theorem rebuild_tokensOnto (t : Term) (rest : List Token) : rebuild (t.tokensOnto rest) = t :: rebuild rest := by
  induction t generalizing rest with
  | nil | atom a | var v => rfl
  | pair h t head tail =>
    calc rebuild ((pair h t).tokensOnto rest)
        = restack .pair (rebuild (h.tokensOnto (t.tokensOnto rest))) := rfl
      _ = restack .pair (h :: t :: rebuild rest) := by rw [head, tail]
      _ = pair h t :: rebuild rest := rfl

theorem tokensOnto_eq (t : Term) (rest : List Token) : t.tokensOnto rest = t.tokens ++ rest := by
  induction t generalizing rest with
  | nil | atom a | var v => rfl
  | pair h t head tail =>
    have tokens : (pair h t).tokens = .pair :: (h.tokens ++ t.tokens) := congrArg (Token.pair :: ·) (head _)
    rw [tokens, tokensOnto, head, tail, List.cons_append, List.append_assoc]

@[simp] theorem tokens_pair {h t : Term} : (pair h t).tokens = .pair :: (h.tokens ++ t.tokens) := by
  rw [← tokensOnto_eq]
  rfl

/-- Where the tokens of a term end is told by the tokens. -/
theorem tokens_append {t u : Term} {rest rest' : List Token} (equal : t.tokens ++ rest = u.tokens ++ rest') :
    t = u ∧ rest = rest' := by
  have terms : t :: rebuild rest = u :: rebuild rest' := by
    rw [← rebuild_tokensOnto, ← rebuild_tokensOnto, tokensOnto_eq, tokensOnto_eq, equal]
  obtain ⟨rfl, -⟩ := List.cons.inj terms
  exact ⟨rfl, List.append_cancel_left equal⟩

theorem tokens_inj {t u : Term} : t.tokens = u.tokens ↔ t = u :=
  ⟨fun equal => (tokens_append (congrArg (· ++ []) equal)).1, congrArg tokens⟩

end Term

/-! ## What is written -/

theorem Atom.writes_append {a b : Atom} {rest rest' : List Write} (equal : a.writes ++ rest = b.writes ++ rest') :
    a = b ∧ rest = rest' := by
  cases a with
  | int n | str s => cases b <;> simp_all [writes]
  | bool x =>
    cases b with
    | bool y => cases x <;> cases y <;> simp_all [writes]
    | _ => simp [writes] at equal

namespace Term

theorem Token.writes_ne_nil (token : Token) : token.writes ≠ [] := by
  cases token <;> simp [writes]

/-- The writes of one token tell the token, and where they end. -/
theorem Token.writes_append {a b : Token} {rest rest' : List Write}
    (equal : a.writes ++ rest = b.writes ++ rest') : a = b ∧ rest = rest' := by
  cases a with
  | nil => cases b <;> simp_all [writes]
  | pair => cases b <;> simp_all [writes]
  | var v =>
    cases b with
    | var w =>
      obtain ⟨index, equal⟩ : v.index = w.index ∧ rest = rest' := by simpa [writes] using equal
      exact ⟨congrArg Token.var (congrArg Var.mk index), equal⟩
    | _ => simp [writes] at equal
  | atom a =>
    cases b with
    | atom b =>
      have contents : a.writes ++ rest = b.writes ++ rest' := by simpa [writes] using equal
      exact ⟨congrArg Token.atom (Atom.writes_append contents).1, (Atom.writes_append contents).2⟩
    | _ => simp [writes] at equal

/-- Tokens are told by what is written for them. -/
theorem flatMap_writes_inj {ts us : List Token} : ts.flatMap Token.writes = us.flatMap Token.writes ↔ ts = us := by
  refine ⟨fun equal => ?_, congrArg _⟩
  induction ts generalizing us with
  | nil =>
    cases us with
    | nil => rfl
    | cons u us => exact absurd equal.symm (by simp [u.writes_ne_nil])
  | cons t ts ih =>
    cases us with
    | nil => exact absurd equal (by simp [t.writes_ne_nil])
    | cons u us =>
      rw [List.flatMap_cons, List.flatMap_cons] at equal
      obtain ⟨rfl, rests⟩ := Token.writes_append equal
      rw [ih rests]

end Term

namespace Handle

variable {σ : Type} {feed : σ → Write → σ} {memory : Nat → Handle × Handle}

/-- Whatever the hasher, its state takes in the tokens of the terms on the stack. -/
theorem hashAll_eq (work : List Handle) (state : σ) :
    hashAll feed work state =
      ((work.flatMap fun t => t.term.tokens).flatMap Term.Token.writes).foldl feed state := by
  fun_induction hashAll feed work state with
  | case1 state => rfl
  | case2 rest state ih | case3 rest state a ih | case4 rest state v ih =>
    simp [ih, term, Term.tokens, Term.tokensOnto]
  | case5 state cell h t rest ih => simp [ih, term, List.flatMap_append]

theorem hash_eq (t : Handle) (state : σ) :
    t.hash feed state = (t.term.tokens.flatMap Term.Token.writes).foldl feed state := by
  simp [hash, hashAll_eq]

theorem foldl_snoc (calls past : List Write) :
    calls.foldl (fun calls call => calls ++ [call]) past = past ++ calls := by
  induction calls generalizing past with
  | nil => simp
  | cons call calls ih => simp [ih]

theorem writes_eq (t : Handle) : t.writes = t.term.tokens.flatMap Term.Token.writes := by
  rw [writes, hash_eq, foldl_snoc, List.nil_append]

/-- The calls that the hash makes are fed to every hasher. -/
theorem hash_eq_foldl_writes (t : Handle) (state : σ) : t.hash feed state = t.writes.foldl feed state := by
  rw [hash_eq, writes_eq]

/-! ## What the comparison decides -/

/-- Where no two cells are met, the shallow comparison decides equality. -/
theorem same_iff {a b : Handle} (apart : ∀ c h t d h' t', a = .pair c h t → b = .pair d h' t' → False) :
    same a b = true ↔ a.term = b.term := by
  cases a with
  | pair c h t =>
    cases b with
    | pair d h' t' => exact (apart c h t d h' t' rfl rfl).elim
    | _ => simp [same, term]
  | _ => cases b <;> simp [same, term]

/-- For handles into one memory, the loop decides whether each pair shows equal terms. -/
theorem agreeAll_iff (work : List (Handle × Handle)) (lies : ∀ p ∈ work, p.1.LiesIn memory ∧ p.2.LiesIn memory) :
    agreeAll work = true ↔ ∀ p ∈ work, p.1.term = p.2.term := by
  fun_induction agreeAll work with
  | case1 => simp
  | case2 h t c h' t' rest ih =>
    obtain ⟨⟨left, right⟩, others⟩ := List.forall_mem_cons.mp lies
    -- One cell holds one head and one tail.
    have contents : (h, t) = (h', t') := left.1.symm.trans right.1
    obtain ⟨rfl, rfl⟩ := Prod.mk.inj contents
    simpa using ih others
  | case3 c h t d h' t' rest apart ih =>
    obtain ⟨⟨left, right⟩, others⟩ := List.forall_mem_cons.mp lies
    have parts : ∀ p ∈ (h, h') :: (t, t') :: rest, p.1.LiesIn memory ∧ p.2.LiesIn memory :=
      List.forall_mem_cons.mpr ⟨⟨left.2.1, right.2.1⟩, List.forall_mem_cons.mpr ⟨⟨left.2.2, right.2.2⟩, others⟩⟩
    rw [ih parts]
    simp [term, and_assoc]
  | case4 a b rest apart ih =>
    rw [Bool.and_eq_true, ih (List.forall_mem_cons.mp lies).2, List.forall_mem_cons, same_iff apart]

theorem agree_iff {t u : Handle} (left : t.LiesIn memory) (right : u.LiesIn memory) :
    t.agree u = true ↔ t.term = u.term := by
  have lies : ∀ p ∈ [(t, u)], p.1.LiesIn memory ∧ p.2.LiesIn memory := by simp [left, right]
  rw [agree, agreeAll_iff _ lies]
  simp

/-- Comparing and hashing handles into one memory. The comparison, with its shortcut for
    shared cells, holds just if the handles are one tree of empty lists, atoms, variables
    and pairs; it is the comparison of the terms without cells. What the hash writes is the
    encoding of the term, whatever the cells; it is the same for two handles just if they
    agree, and then every hasher ends in the same state. From the tokens of a term that
    others follow, the term and what follows are told. -/
theorem structural {t u : Handle} (left : t.LiesIn memory) (right : u.LiesIn memory) :
    (t.agree u = true ↔ t.term = u.term) ∧
    t.agree u = t.term.agree u.term ∧
    t.writes = t.term.tokens.flatMap Term.Token.writes ∧
    (t.writes = u.writes ↔ t.agree u = true) ∧
    (t.term.tokens = u.term.tokens ↔ t.agree u = true) ∧
    (t.agree u = true → ∀ (σ : Type) (feed : σ → Write → σ) (state : σ), t.hash feed state = u.hash feed state) ∧
    (∀ rest rest', t.term.tokens ++ rest = u.term.tokens ++ rest' → t.agree u = true ∧ rest = rest') := by
  have decides := agree_iff left right
  have alike : t.writes = u.writes ↔ t.agree u = true := by
    rw [writes_eq, writes_eq, Term.flatMap_writes_inj, Term.tokens_inj, decides]
  refine ⟨decides, ?_, t.writes_eq, alike, ?_, fun agree σ feed state => ?_, fun rest rest' equal => ?_⟩
  · rw [Bool.eq_iff_iff, decides, Term.agree_iff]
  · rw [Term.tokens_inj, decides]
  · rw [hash_eq_foldl_writes, hash_eq_foldl_writes, alike.mpr agree]
  · obtain ⟨terms, rests⟩ := Term.tokens_append equal
    exact ⟨decides.mpr terms, rests⟩

/-- A cell met twice agrees with two copies of it, though the cells that hold them differ. -/
theorem structural_copies :
    let copy (cell : Nat) : Handle := .pair cell (.atom (.int 1)) (.var ⟨4⟩)
    let memory (cell : Nat) : Handle × Handle :=
      if cell = 3 then (copy 0, copy 0) else if cell = 4 then (copy 1, copy 2) else (.atom (.int 1), .var ⟨4⟩)
    let t : Handle := .pair 3 (copy 0) (copy 0)
    let u : Handle := .pair 4 (copy 1) (copy 2)
    t.LiesIn memory ∧ u.LiesIn memory ∧ same t u = false ∧ t.agree u = true ∧ t.writes = u.writes := by
  intro copy memory t u
  have left : t.LiesIn memory := by simp [t, copy, memory, LiesIn]
  have right : u.LiesIn memory := by simp [u, copy, memory, LiesIn]
  obtain ⟨decides, -, -, alike, -⟩ := structural left right
  have agree : t.agree u = true := decides.mpr rfl
  exact ⟨left, right, rfl, agree, alike.mpr agree⟩

end Handle

end ConstraintLogic
