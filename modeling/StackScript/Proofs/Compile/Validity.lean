import StackScript.Compile.Program

/-! # Valid programs

The places of a program where it can be wrong by its text alone: operators, names, targets of
assignments and exits of loops, each with the names that are visible there. A program is valid when
none of them is flawed.
-/

namespace StackScript

/-- Where the innermost binding of a name is, from a point of the program. -/
inductive Origin
  | topLevel
  | sameBody
  | outerBody
  /-- The function around the point, under its own name. -/
  | itself
deriving DecidableEq, Repr

/-- The names that are visible at a point. -/
structure Visible where
  inFunction : Bool := false
  origin : String → Option Origin := fun _ => none

namespace Visible

def bind (γ : Visible) (name : String) (origin : Origin) : Visible :=
  { γ with origin := fun other => if other = name then some origin else γ.origin other }

/-- Whether the innermost binding of a name is a variable of the top level or of the same body. -/
def assigns (γ : Visible) (name : String) : Bool :=
  γ.origin name = some .topLevel || γ.origin name = some .sameBody

/-- Whether a name is bound or stands for a builtin. -/
def resolves (γ : Visible) (name : String) : Bool :=
  (γ.origin name).isSome || (Builtin.indexOf? name).isSome

/-- After a `let`. It writes to the variable of that name if there is one to assign to. -/
def declare (γ : Visible) (name : String) : Visible :=
  if γ.assigns name then γ else γ.bind name (if γ.inFunction then .sameBody else .topLevel)

def enclose (γ : Visible) : Visible where
  inFunction := true
  origin name := (γ.origin name).map fun o => if o = .topLevel then .topLevel else .outerBody

def bindSelf (γ : Visible) : Option String → Visible
  | some name => γ.bind name .itself
  | none => γ

def bindParams (γ : Visible) (params : List Ident) : Visible :=
  params.foldl (fun γ p => γ.bind p.name .sameBody) γ

def enter (γ : Visible) (self : Option String) (params : List Ident) : Visible :=
  (γ.enclose.bindSelf self).bindParams params

end Visible

/-- A place where a program can be wrong. -/
inductive Site
  | operator (op : BinaryOp) (span : Span)
  | use (γ : Visible) (name : String) (span : Span)
  | assign (γ : Visible) (target : Expr)
  | breakLoop (inLoop : Bool) (span : Span)
  | continueLoop (inLoop : Bool) (span : Span)

/-- The name that an assignment to the expression writes to. -/
def Expr.assigned? : Expr → Option String
  | ident name _ | index (ident name _) _ _ => some name
  | _ => none

/-- There is no instruction for `**`; names are bound or builtins; what is assigned is a variable of
the top level or of the same body, or an element of one; and loops are left from inside. -/
def Site.Ok : Site → Prop
  | operator op _ => op ≠ .pow
  | use γ name _ => γ.resolves name
  | assign γ target => ∃ name, target.assigned? = some name ∧ γ.assigns name
  | breakLoop inLoop _ | continueLoop inLoop _ => inLoop = true

/-- What is wrong with a name as the target of an assignment. -/
def Visible.targetFlaw? (γ : Visible) (name : String) (span : Span) : Option CompileError :=
  match γ.origin name with
  | some .topLevel | some .sameBody => none
  | some .outerBody => some ⟨.invalidAssignment (.named .captured name), span⟩
  | some .itself => some ⟨.invalidAssignment (.named .self name), span⟩
  | none =>
    if (Builtin.indexOf? name).isSome then some ⟨.invalidAssignment (.named .builtin name), span⟩
    else some ⟨.symbol (.unresolved name), span⟩

/-- What is wrong with a place, and where. -/
def Site.flaw? : Site → Option CompileError
  | operator op span => if op = .pow then some ⟨.unknownOperator op, span⟩ else none
  | use γ name span => if γ.resolves name then none else some ⟨.symbol (.unresolved name), span⟩
  | assign γ target =>
    match target with
    | .ident name span | .index (.ident name span) _ _ => γ.targetFlaw? name span
    | .index aggregate _ _ => some ⟨.invalidAssignment .nestedIndex, aggregate.span⟩
    | e => some ⟨.invalidAssignment .expression, e.span⟩
  | breakLoop inLoop span => if inLoop then none else some ⟨.breakOutsideLoop, span⟩
  | continueLoop inLoop span => if inLoop then none else some ⟨.continueOutsideLoop, span⟩

/-- The names that are visible behind a statement. -/
def Stmt.after (γ : Visible) : Stmt → Visible
  | bind name _ _ => γ.declare name.name
  | _ => γ

def stmtsAfter (γ : Visible) (ss : List Stmt) : Visible := ss.foldl Stmt.after γ

def initAfter (γ : Visible) : Option Stmt → Visible
  | some s => s.after γ
  | none => γ

/-! The places of a node, in the order in which the compiler comes to them. A branch, the body of
`while` and a whole `for` are scopes; the last clause of a `for` comes behind its body. -/

mutual

def Expr.sites (γ : Visible) (inLoop : Bool) : Expr → List Site
  | .int _ _ | .decimal _ _ | .str _ _ | .bool _ _ | .null _ => []
  | .ident name span => [.use γ name span]
  | .unary _ e _ => e.sites γ inLoop
  | .binary op left right span => .operator op span :: (left.sites γ inLoop ++ right.sites γ inLoop)
  | .cond condition consequence alternative _ =>
    condition.sites γ inLoop ++ (consequence.sites γ inLoop ++
      match alternative with
      | some b => b.sites γ inLoop
      | none => [])
  | .function name params (.mk body _) _ => stmtsSites (γ.enter name params) false body
  | .call callee args _ => callee.sites γ inLoop ++ exprsSites γ inLoop args
  | .array items _ => exprsSites γ inLoop items
  | .hash ps _ => pairsSites γ inLoop ps
  | .index target index _ => target.sites γ inLoop ++ index.sites γ inLoop
  | .assign target value _ =>
    .assign γ target :: ((match target with
      | .index (.ident _ _) index _ => index.sites γ inLoop
      | _ => []) ++ value.sites γ inLoop)

def exprsSites (γ : Visible) (inLoop : Bool) : List Expr → List Site
  | [] => []
  | e :: es => e.sites γ inLoop ++ exprsSites γ inLoop es

def pairsSites (γ : Visible) (inLoop : Bool) : List (Expr × Expr) → List Site
  | [] => []
  | (key, value) :: ps =>
    key.sites γ inLoop ++ (value.sites γ inLoop ++ pairsSites γ inLoop ps)

def Block.sites (γ : Visible) (inLoop : Bool) : Block → List Site
  | .mk body _ => stmtsSites γ inLoop body

def Stmt.sites (γ : Visible) (inLoop : Bool) : Stmt → List Site
  | .bind name value _ =>
    match value with
    | .function own params (.mk body _) _ =>
      -- a function is bound before its body is read, and knows its name
      stmtsSites ((γ.declare name.name).enter (own.or (some name.name)) params) false body
    | value => value.sites γ inLoop
  | .ret none _ => []
  | .ret (some e) _ => e.sites γ inLoop
  | .expr e _ => e.sites γ inLoop
  | .whileLoop condition (.mk body _) _ =>
    condition.sites γ inLoop ++ stmtsSites γ true body
  | .forLoop init condition update (.mk body _) _ =>
    (match init with
      | some s => s.sites γ inLoop
      | none => []) ++
    ((match condition with
      | some e => e.sites (initAfter γ init) inLoop
      | none => []) ++
    (stmtsSites (initAfter γ init) true body ++
      match update with
      | some e => e.sites (stmtsAfter (initAfter γ init) body) inLoop
      | none => []))
  | .breakLoop span => [.breakLoop inLoop span]
  | .continueLoop span => [.continueLoop inLoop span]

def stmtsSites (γ : Visible) (inLoop : Bool) : List Stmt → List Site
  | [] => []
  | s :: ss => s.sites γ inLoop ++ stmtsSites (s.after γ) inLoop ss

end

theorem Expr.sites_cond (γ : Visible) (inLoop : Bool) (condition : Expr) (consequence : Block)
    (alternative : Option Block) (span : Span) :
    (Expr.cond condition consequence alternative span).sites γ inLoop =
      condition.sites γ inLoop ++ (consequence.sites γ inLoop ++
        alternative.elim [] (Block.sites γ inLoop)) := by
  cases alternative <;> rfl

theorem Stmt.sites_forLoop (γ : Visible) (inLoop : Bool) (init : Option Stmt)
    (condition update : Option Expr) (body : List Stmt) (bodySpan span : Span) :
    (Stmt.forLoop init condition update (.mk body bodySpan) span).sites γ inLoop =
      init.elim [] (Stmt.sites γ inLoop) ++
      (condition.elim [] (Expr.sites (initAfter γ init) inLoop) ++
      (stmtsSites (initAfter γ init) true body ++
        update.elim [] (Expr.sites (stmtsAfter (initAfter γ init) body) inLoop))) := by
  cases init <;> cases condition <;> cases update <;> rfl

def firstFlaw? (sites : List Site) : Option CompileError := sites.findSome? Site.flaw?

/-- The names that are visible behind a statement of a program that fails. A function is bound all
the same. -/
def Stmt.afterFailure (γ : Visible) : Stmt → Visible
  | bind name (.function _ _ _ _) _ => γ.declare name.name
  | _ => γ

/-- The first flaw of each flawed statement. -/
def flaws (γ : Visible) : List Stmt → List CompileError
  | [] => []
  | s :: ss =>
    match firstFlaw? (s.sites γ false) with
    | none => flaws (s.after γ) ss
    | some e => e :: flaws (s.afterFailure γ) ss

/-- No place of the program is flawed. -/
def Program.Valid (program : Program) : Prop :=
  ∀ site ∈ stmtsSites {} false program.statements, site.Ok

theorem Visible.targetFlaw?_eq_none_iff {γ : Visible} {name : String} {span : Span} :
    γ.targetFlaw? name span = none ↔ γ.assigns name = true := by
  unfold targetFlaw? assigns
  split <;> simp_all
  split <;> simp

theorem Site.flaw?_eq_none_iff {site : Site} : site.flaw? = none ↔ site.Ok := by
  cases site with
  | assign γ target =>
    have hname (name : String) (span : Span) : γ.targetFlaw? name span = none ↔
        ∃ other, some name = some other ∧ γ.assigns other := by
      rw [Visible.targetFlaw?_eq_none_iff]
      simp
    cases target with
    | ident name span => exact hname name span
    | index aggregate _ _ =>
      cases aggregate with
      | ident name span => exact hname name span
      | _ => simp [flaw?, Ok, Expr.assigned?]
    | _ => simp [flaw?, Ok, Expr.assigned?]
  | operator op span => simp [flaw?, Ok]
  | use γ name span => simp [flaw?, Ok]
  | breakLoop inLoop span => simp [flaw?, Ok]
  | continueLoop inLoop span => simp [flaw?, Ok]

theorem firstFlaw?_eq_none_iff {sites : List Site} :
    firstFlaw? sites = none ↔ ∀ site ∈ sites, site.Ok := by
  simp only [firstFlaw?, List.findSome?_eq_none_iff, Site.flaw?_eq_none_iff]

theorem firstFlaw?_cons (site : Site) (sites : List Site) :
    firstFlaw? (site :: sites) = site.flaw?.or (firstFlaw? sites) := by
  rw [firstFlaw?, List.findSome?_cons]
  cases site.flaw? <;> rfl

theorem firstFlaw?_singleton (site : Site) : firstFlaw? [site] = site.flaw? := by
  rw [firstFlaw?_cons]
  exact Option.or_none

theorem firstFlaw?_append (sites sites' : List Site) :
    firstFlaw? (sites ++ sites') = (firstFlaw? sites).or (firstFlaw? sites') :=
  List.findSome?_append

theorem flaws_eq_nil_iff {γ : Visible} {ss : List Stmt} :
    flaws γ ss = [] ↔ ∀ site ∈ stmtsSites γ false ss, site.Ok := by
  induction ss generalizing γ with
  | nil => simp [flaws, stmtsSites]
  | cons s ss ih =>
    simp only [flaws, stmtsSites, List.mem_append, or_imp, forall_and, ← ih]
    rw [← firstFlaw?_eq_none_iff]
    cases firstFlaw? (s.sites γ false) <;> simp

instance (program : Program) : Decidable program.Valid :=
  decidable_of_iff (flaws {} program.statements = []) flaws_eq_nil_iff

open StackScript.Stmt StackScript.Expr in
/-- Only a function knows the name that it is bound to. -/
example :
    let name : Ident := ⟨"f", .nowhere⟩
    let use : Expr := ident "f" .nowhere
    Program.Valid ⟨[bind name (function none [] (.mk [ret (some use) .nowhere] .nowhere) .nowhere)
      .nowhere]⟩ ∧ ¬Program.Valid ⟨[bind name (array [use] .nowhere) .nowhere]⟩ := by
  decide

end StackScript
