import LoopNest.Stamp.Basic

/-! Listings of stamped trees, every node two blanks deeper than the one that it belongs to. -/
namespace LoopNest
namespace StampedExpr

def label : StampedExpr → String
  | .constant _ v => "constant " ++ v.render
  | .input _ path => "input " ++ path.render
  | .ref _ name => "ref " ++ name
  | .call _ func _ => "call " ++ func
  | .tuple .. => "tuple"
  | .select .. => "select"
  | .reduce _ op reduced _ => "reduce " ++ op ++ " over " ++ reduced.render

/-- Shown where an argument expands. -/
def renderExpand (expand : List Bool) : String :=
  if expand.any id then "  expand=[" ++ ", ".intercalate (expand.map Literal.renderBool) ++ "]"
  else ""

def renderPlan : Option Plan → String
  | some (.elementwise _ expand) | some (.constructor _ _ expand) => renderExpand expand
  | _ => ""

def line (depth : Nat) (e : StampedExpr) : String :=
  Json.indentation depth ++ e.note.value.render ++ " " ++ e.label ++ " : " ++ e.note.stamp.render ++
    renderPlan e.note.plan ++ "\n"

mutual
/-- The lines of an expression, each node before its subexpressions. -/
def lines (depth : Nat) : StampedExpr → List String
  | .constant m v => [line depth (.constant m v)]
  | .input m path => [line depth (.input m path)]
  | .ref m name => [line depth (.ref m name)]
  | .call m func args => line depth (.call m func args) :: linesAll (depth + 1) args
  | .tuple m elems => line depth (.tuple m elems) :: linesAll (depth + 1) elems
  | .select m c t f =>
    line depth (.select m c t f) ::
      (lines (depth + 1) c ++ (lines (depth + 1) t ++ lines (depth + 1) f))
  | .reduce m op reduced arg => line depth (.reduce m op reduced arg) :: lines (depth + 1) arg

def linesAll (depth : Nat) : List StampedExpr → List String
  | [] => []
  | e :: es => lines depth e ++ linesAll depth es
end

end StampedExpr

def StampedDecl.render (d : StampedDecl) : String :=
  d.kind.text ++ " " ++ d.name ++ " : " ++ d.stamp.render ++ "  # topo " ++
    toString d.topo ++ "\n" ++ String.join (StampedExpr.lines 1 d.body)

def StampedModule.render (m : StampedModule) : String :=
  "\n".intercalate (m.decls.map StampedDecl.render)

end LoopNest
