import StackScript.Proofs.Compile.Listing

/-! # Listings and larger pools

A listing is one for every pool that begins with the constants it was made for. So functions of
earlier programs stay good when later programs add constants.
-/

namespace StackScript

variable {pool more : Array Value}

mutual

theorem ExprCode.mono (hp : pool.toList <+: more.toList)
    {c : Setting} {s s₁ : Cursor} {e : Expr} {is : List Item} :
    ExprCode pool c s e is s₁ → ExprCode more c s e is s₁
  | .constant he hv => .constant he (getElem?_of_extends hp hv)
  | .bool => .bool
  | .null => .null
  | .ident hplace hi => .ident hplace hi
  | .unary h => .unary (h.mono hp)
  | .binary ho h₁ h₂ => .binary ho (h₁.mono hp) (h₂.mono hp)
  | .cond h₁ h₂ h₃ => .cond (h₁.mono hp) (h₂.mono hp) (h₃.mono hp)
  | .function h => .function (h.mono hp)
  | .call h₁ h₂ => .call (h₁.mono hp) (h₂.mono hp)
  | .array h => .array (h.mono hp)
  | .hash h => .hash (h.mono hp)
  | .index h₁ h₂ => .index (h₁.mono hp) (h₂.mono hp)
  | .assign hplace hi ha h => .assign hplace hi ha (h.mono hp)
  | .assignElement hplace hi ha h₁ h₂ => .assignElement hplace hi ha (h₁.mono hp) (h₂.mono hp)

theorem ExprsCode.mono (hp : pool.toList <+: more.toList)
    {c : Setting} {s s₁ : Cursor} {es : List Expr} {is : List Item} :
    ExprsCode pool c s es is s₁ → ExprsCode more c s es is s₁
  | .nil => .nil
  | .cons h₁ h₂ => .cons (h₁.mono hp) (h₂.mono hp)

theorem PairsCode.mono (hp : pool.toList <+: more.toList)
    {c : Setting} {s s₁ : Cursor} {ps : List (Expr × Expr)} {is : List Item} :
    PairsCode pool c s ps is s₁ → PairsCode more c s ps is s₁
  | .nil => .nil
  | .cons h₁ h₂ h₃ => .cons (h₁.mono hp) (h₂.mono hp) (h₃.mono hp)

theorem BranchCode.mono (hp : pool.toList <+: more.toList)
    {c : Setting} {s s₁ : Cursor} {b : Block} {is : List Item} :
    BranchCode pool c s b is s₁ → BranchCode more c s b is s₁
  | .value h => .value (h.mono hp)
  | .null he h => .null he (h.mono hp)

theorem ElseCode.mono (hp : pool.toList <+: more.toList)
    {c : Setting} {s s₁ : Cursor} {b : Option Block} {span : Span}
    {is : List Item} : ElseCode pool c s b span is s₁ → ElseCode more c s b span is s₁
  | .block h => .block (h.mono hp)
  | .null => .null

theorem ClosureCode.mono (hp : pool.toList <+: more.toList)
    {c : Setting} {s s₁ : Cursor} {self : Option String}
    {params : List Ident} {body : List Stmt} {bodySpan span : Span} {is : List Item} :
    ClosureCode pool c s self params body bodySpan span is s₁ →
      ClosureCode more c s self params body bodySpan span is s₁
  | .mk h hv hplaces hn hi => .mk (h.mono hp) (getElem?_of_extends hp hv) hplaces hn hi

theorem FunctionCode.mono (hp : pool.toList <+: more.toList)
    {env : Lexical} {names : List String} {constants : Nat}
    {self : Option String} {params : List Ident} {body : List Stmt} {bodySpan : Span} {f : Function}
    {is : List Item} {s₁ : Cursor} :
    FunctionCode pool env names constants self params body bodySpan f is s₁ →
      FunctionCode more env names constants self params body bodySpan f is s₁
  | .mk h hfits hcode hlocals hparams hname hspans =>
    .mk (h.mono hp) hfits hcode hlocals hparams hname hspans

theorem BodyCode.mono (hp : pool.toList <+: more.toList)
    {c : Setting} {s s₁ : Cursor} {body : List Stmt} {span : Span}
    {is : List Item} : BodyCode pool c s body span is s₁ → BodyCode more c s body span is s₁
  | .value h => .value (h.mono hp)
  | .returned he h => .returned he (h.mono hp)
  | .null he h => .null he (h.mono hp)

theorem ValueCode.mono (hp : pool.toList <+: more.toList)
    {c : Setting} {s s₁ : Cursor} {ss : List Stmt} {is : List Item} :
    ValueCode pool c s ss is s₁ → ValueCode more c s ss is s₁
  | .last h => .last (h.mono hp)
  | .cons h₁ h₂ => .cons (h₁.mono hp) (h₂.mono hp)

theorem StmtCode.mono (hp : pool.toList <+: more.toList)
    {c : Setting} {s s₁ : Cursor} {st : Stmt} {is : List Item} {env : Lexical} :
    StmtCode pool c s st is s₁ env → StmtCode more c s st is s₁ env
  | .bindFunction hd hi h => .bindFunction hd hi (h.mono hp)
  | .bind hv h hd hi => .bind hv (h.mono hp) hd hi
  | .ret => .ret
  | .retValue h => .retValue (h.mono hp)
  | .expr h => .expr (h.mono hp)
  | .whileLoop h₁ h₂ => .whileLoop (h₁.mono hp) (h₂.mono hp)
  | .forLoop h₀ h₁ h₂ h₃ => .forLoop (h₀.mono hp) (h₁.mono hp) (h₂.mono hp) (h₃.mono hp)
  | .breakLoop hl hh hs => .breakLoop hl hh hs
  | .continueLoop hl hh hs => .continueLoop hl hh hs

theorem StmtsCode.mono (hp : pool.toList <+: more.toList)
    {c : Setting} {s s₁ : Cursor} {ss : List Stmt} {is : List Item}
    {env : Lexical} : StmtsCode pool c s ss is s₁ env → StmtsCode more c s ss is s₁ env
  | .nil => .nil
  | .cons h₁ h₂ => .cons (h₁.mono hp) (h₂.mono hp)

theorem InitCode.mono (hp : pool.toList <+: more.toList)
    {c : Setting} {s s₁ : Cursor} {st : Option Stmt} {is : List Item}
    {env : Lexical} : InitCode pool c s st is s₁ env → InitCode more c s st is s₁ env
  | .none => .none
  | .some h => .some (h.mono hp)

theorem GuardCode.mono (hp : pool.toList <+: more.toList)
    {c : Setting} {s s₁ : Cursor} {e : Option Expr} {stop : Nat}
    {is : List Item} : GuardCode pool c s e stop is s₁ → GuardCode more c s e stop is s₁
  | .none => .none
  | .some h => .some (h.mono hp)

theorem UpdateCode.mono (hp : pool.toList <+: more.toList)
    {c : Setting} {s s₁ : Cursor} {e : Option Expr} {is : List Item} :
    UpdateCode pool c s e is s₁ → UpdateCode more c s e is s₁
  | .none => .none
  | .some h => .some (h.mono hp)

end

end StackScript
