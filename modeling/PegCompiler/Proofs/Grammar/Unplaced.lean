import PegCompiler.Grammar.Reader

/-!
Grammars without their locations. Two texts that say the same in different places give grammars that are
equal once the locations are left out. Nodes are equal so if their parts are.
-/

namespace PegCompiler

/-- The annotations of a node without its location. -/
def Info.unplaced (info : Info) : Info := { info with location := none }

namespace Expr

mutual

/-- The expression without any locations. -/
def unplaced : Expr → Expr
  | literal info value ignoreCase => literal info.unplaced value ignoreCase
  | charClass info members => charClass info.unplaced members
  | any info => any info.unplaced
  | ruleRef info name => ruleRef info.unplaced name
  | sequence info elements => sequence info.unplaced (unplacedAll elements)
  | choice info alternatives => choice info.unplaced (unplacedAll alternatives)
  | labeled info label _ auto body => labeled info.unplaced label none auto (unplaced body)
  | unary info operator body => unary info.unplaced operator (unplaced body)
  | range info min max body none => range info.unplaced min max (unplaced body) none
  | range info min max body (some separator) =>
    range info.unplaced min max (unplaced body) (some (unplaced separator))
  | named info name body => named info.unplaced name (unplaced body)
  | action info code _ body => action info.unplaced code none (unplaced body)
  | predicate info negative code => predicate info.unplaced negative code
  | foreign what => foreign what

def unplacedAll : List Expr → List Expr
  | [] => []
  | e :: rest => unplaced e :: unplacedAll rest

end

variable {e f : Expr}

theorem unplacedAll_eq_map (es : List Expr) : unplacedAll es = es.map unplaced := by
  induction es with
  | nil => rfl
  | cons e rest ih => rw [unplacedAll, ih, List.map_cons]

theorem isAuto_unplaced (e : Expr) : Scan.isAuto e.unplaced = Scan.isAuto e := by
  unfold unplaced
  split <;> rfl

theorem sequence_of_unplaced {info : Info} {es : List Expr}
    (like : f.unplaced = (sequence info es).unplaced) : ∃ info' fs, f = sequence info' fs := by
  unfold unplaced at like
  split at like <;> first | exact ⟨_, _, rfl⟩ | cases like

theorem labeled_of_unplaced {info : Info} {label : Option Text} {location : Option Location} {auto : Bool}
    (like : f.unplaced = (labeled info label location auto e).unplaced) :
    ∃ info' label' location' auto' g, f = labeled info' label' location' auto' g := by
  unfold unplaced at like
  split at like <;> first | exact ⟨_, _, _, _, _, rfl⟩ | cases like

theorem unplaced_unary {info info' : Info} {operator : Operator} (infos : info'.unplaced = info.unplaced)
    (body : f.unplaced = e.unplaced) :
    (unary info' operator f).unplaced = (unary info operator e).unplaced := by
  simp only [unplaced, infos, body]

theorem unplaced_labeled {info info' : Info} {label : Option Text} {location location' : Option Location}
    {auto : Bool} (infos : info'.unplaced = info.unplaced) (body : f.unplaced = e.unplaced) :
    (labeled info' label location' auto f).unplaced = (labeled info label location auto e).unplaced := by
  simp only [unplaced, infos, body]

theorem unplaced_choice {info info' : Info} {es fs : List Expr} (infos : info'.unplaced = info.unplaced)
    (alternatives : fs.map unplaced = es.map unplaced) :
    (choice info' fs).unplaced = (choice info es).unplaced := by
  simp only [unplaced, unplacedAll_eq_map, infos, alternatives]

theorem unplaced_range {info info' : Info} {min max : Boundary} {separator separator' : Option Expr}
    (infos : info'.unplaced = info.unplaced) (body : f.unplaced = e.unplaced)
    (delimiter : separator'.map unplaced = separator.map unplaced) :
    (range info' min max f separator').unplaced = (range info min max e separator).unplaced := by
  cases separator with
  | none =>
    obtain rfl : separator' = none := Option.map_eq_none_iff.mp delimiter
    simp only [unplaced, infos, body]
  | some separator =>
    obtain ⟨separator', rfl, same⟩ := Option.map_eq_some_iff.mp delimiter
    simp only [unplaced, infos, body, same]

end Expr

namespace Rule

/-- The rule without any locations. -/
def unplaced (r : Rule) : Rule :=
  { r with body := r.body.unplaced, location := none, nameLocation := none }

end Rule

/-- The code of a grammar without its location. -/
def Initializer.unplaced (i : Initializer) : Initializer := { i with location := none }

/-- The grammar without any locations. -/
def Grammar.unplaced (g : Grammar) : Grammar :=
  { g with
    rules := g.rules.map Rule.unplaced
    initializer := g.initializer.map Initializer.unplaced
    location := none }

end PegCompiler
