import FormulaPath.Rule

/-!
The resolution of a path to a chain of nodes. The chain has a node for each part up to the first
that does not resolve, and it is never empty: the empty text has one node that says so.
-/
namespace FormulaPath

/-- What a part means. A name glued to a bracket, and a part that every rule declines, are
undefined. -/
def partMeaning (env : Environment) (trail : Trail) (part : Part) : Meaning :=
  if part.separator = .missing then .invalid (.undefined part.text)
  else (Rule.decide? env trail part.text).getD (.invalid (.undefined part.text))

def partNode (env : Environment) (trail : Trail) (part : Part) : Node :=
  ⟨part.region, partMeaning env trail part⟩

/-- The nodes of parts behind a trail, up to the first that does not resolve. -/
def resolveFrom (env : Environment) (trail : Trail) : List Part → List Node
  | [] => []
  | part :: parts =>
    let node := partNode env trail part
    if node.isInvalid then [node] else node :: resolveFrom env (node :: trail) parts

def resolve (env : Environment) (path : String) : List Node :=
  if path.isEmpty then [⟨Region.empty 0, .empty⟩] else resolveFrom env [] (Path.split path)

/-- Why the chain ends before the path does. -/
def chainProblem? (chain : List Node) : Option Problem := chain.getLast?.bind Node.problem?

/-- The chain of a path with its nodes linked to each other. -/
def resolveLinked (env : Environment) (path : String) : Chain :=
  (Chain.ofNodes? (resolve env path)).getD (.last ⟨Region.empty 0, .empty⟩)

/-- The trail behind all the parts, if each of them resolves. -/
def settle? (env : Environment) (trail : Trail) : List Part → Option Trail
  | [] => some trail
  | part :: parts =>
    let node := partNode env trail part
    if node.isInvalid then none else settle? env (node :: trail) parts

/-- The trails along the parts when each part takes what the rules decide, valid or not and whatever
stands in front of it. The flag tells whether no part was declined by all rules. -/
def follow (env : Environment) (trail : Trail) : List Part → List Trail × Bool
  | [] => ([trail], true)
  | part :: parts =>
    match Rule.decide? env trail part.text with
    | none => ([trail], false)
    | some meaning =>
      let (trails, complete) := follow env (⟨part.region, meaning⟩ :: trail) parts
      (trail :: trails, complete)

theorem resolveFrom_ne_nil (env : Environment) (trail : Trail) {parts : List Part}
    (h : parts ≠ []) : resolveFrom env trail parts ≠ [] := by
  cases parts with
  | nil => exact absurd rfl h
  | cons part parts =>
    simp only [resolveFrom]
    split <;> simp

theorem resolve_ne_nil (env : Environment) (path : String) : resolve env path ≠ [] := by
  unfold resolve
  split
  · simp
  · exact resolveFrom_ne_nil env [] (Path.split_ne_nil path)

/-- No node is lost or added when the nodes of a path are linked. -/
theorem nodes_resolveLinked (env : Environment) (path : String) :
    (resolveLinked env path).nodes = resolve env path := by
  obtain ⟨c, hc⟩ := Chain.exists_ofNodes? (resolve_ne_nil env path)
  rw [resolveLinked, hc]
  exact Chain.ofNodes?_eq_some_iff.mp hc

theorem problem?_resolveLinked (env : Environment) (path : String) :
    (resolveLinked env path).problem? = chainProblem? (resolve env path) := by
  rw [chainProblem?, ← nodes_resolveLinked, Chain.getLast?_nodes]
  rfl

end FormulaPath
