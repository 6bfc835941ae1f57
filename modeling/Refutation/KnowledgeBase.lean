import Refutation.NormalForm.Clausal
import Refutation.Search.Loop
import Refutation.Signature

/-!
# Knowledge bases

A knowledge base takes in sentences, keeps their clauses, and answers queries by refuting their
negation. A query with free variables is answered by bindings of them: its negation is asked
together with an answer literal over the variables, and every clause of answer literals that is
derived tells what the variables may be. Asking leaves the knowledge base as it was.
-/

namespace Refutation

/-- Why a knowledge base refuses a sentence or a query. -/
inductive Refusal where
  | config (f : ConfigFault)
  | signature (f : SignatureFault)
  | shape (f : ShapeFault)
deriving DecidableEq

def Refusal.message : Refusal → String
  | .config f => f.message
  | .signature f => f.message
  | .shape f => f.message

/-- Sentences told, the clauses they became, and the symbols they use. -/
structure KnowledgeBase where
  /-- The sentences in the order they were told. -/
  sentences : List Sentence := []
  /-- The clauses, no two with the same literals. -/
  clauses : List Clause := []
  signature : Signature := {}
  converter : Converter := {}

namespace KnowledgeBase

def empty : KnowledgeBase := {}

/-! ## Telling -/

/-- Keeps the clauses that are new. -/
def store (kb : KnowledgeBase) (cs : List Clause) : KnowledgeBase :=
  { kb with clauses := cs.foldl (fun kept c => if kept.any (·.same c) then kept else kept ++ [c]) kb.clauses }

/-- Takes in a sentence; also tells how many clauses are new. -/
def tell (kb : KnowledgeBase) (s : Sentence) : Except Refusal (Nat × KnowledgeBase) := do
  let signature ← (kb.signature.check s).mapError .signature
  let (cs, converter) ← (kb.converter.convert s).mapError .shape
  let stored := kb.store cs
  return (stored.clauses.length - kb.clauses.length,
    { stored with signature, converter, sentences := kb.sentences ++ [s] })

/-- Takes in sentences up to the first that is refused. What came before it stays. -/
def tellAll (kb : KnowledgeBase) (ss : List Sentence) : Except Refusal Nat × KnowledgeBase :=
  go kb 0 ss
where
  go (kb : KnowledgeBase) (added : Nat) : List Sentence → Except Refusal Nat × KnowledgeBase
  | [] => (.ok added, kb)
  | s :: ss =>
    match kb.tell s with
    | .ok (n, kb) => go kb (added + n) ss
    | .error e => (.error e, kb)

/-- Takes in a clause; also tells whether it is new. -/
def tellClause (kb : KnowledgeBase) (c : Clause) : Except Refusal (Bool × KnowledgeBase) := do
  let signature ← match c.toSentence? with
    | some s => (kb.signature.check s).mapError .signature
    | none => pure kb.signature
  let stored := kb.store [c]
  return (decide (kb.clauses.length < stored.clauses.length), { stored with signature })

/-! ## Asking -/

/-- The sentence whose clauses are to be refuted: the negated query, or an answer. -/
def goal (query : Sentence) : Sentence :=
  if query.free.isEmpty then .not query
  else .or (.not query) (.atom (.pred answerPredicate (query.free.map .var)))

/-- Records clauses as inputs of a derivation. -/
def inputs (rule : Rule) : List Clause → Derivation → List Sourced × Derivation
  | [], d => ([], d)
  | c :: cs, d =>
    let (source, d) := d.derive c rule []
    let (sources, d) := inputs rule cs d
    (source :: sources, d)

/-- The search that decides a query: the goal's clauses are the support, the stored ones the
background. -/
def search (kb : KnowledgeBase) (query : Sentence) (config : Config) : Except Refusal Search := do
  config.validate.mapError .config
  let _ ← (kb.signature.check query).mapError .signature
  let (goals, _) ← (kb.converter.convert (goal query)).mapError .shape
  let (background, d) := inputs .premise kb.clauses .empty
  let (support, d) := inputs .goal goals d
  return .start config background support query.free d

/-- Decides whether a query follows; `none` if the fuel runs out. -/
def ask (kb : KnowledgeBase) (query : Sentence) (config : Config) (clock : Clock) (fuel : Nat) :
    Except Refusal (Option (Outcome × Search)) := do
  return (← kb.search query config).run clock fuel

/-! ## Looking up -/

def definiteClauses (kb : KnowledgeBase) : List Clause := kb.clauses.filter (·.isDefinite)

/-- The rules as implications. -/
def implications (kb : KnowledgeBase) : List Sentence := kb.clauses.filterMap Clause.toImplication?

def factCount (kb : KnowledgeBase) : Nat :=
  (kb.clauses.filter (·.isDefinite)).length - (kb.clauses.filter (·.isRule)).length

/-- All clauses that are not facts count as rules. -/
def ruleCount (kb : KnowledgeBase) : Nat := kb.clauses.length - kb.factCount

/-- The literals that are clauses of their own. -/
def unitClauses (kb : KnowledgeBase) : List Clause := kb.clauses.filter (·.isUnit)

/-- Adds the unifier of a literal with a unit clause, unless it was found before. Also returns the
name source after renaming the clause. -/
def fetchFrom (l : Literal) (found : List Substitution × NameSource) (c : Clause) :
    List Substitution × NameSource :=
  let (σs, ns) := found
  let r := c.renameApart l.vars ns
  match r.clause.literals with
  | [] => (σs, r.names)
  | fact :: _ =>
    if fact.positive != l.positive then (σs, r.names)
    else match ({} : Unifier).literals l fact with
      | .error _ => (σs, r.names)
      | .ok σ =>
        let σ := σ.restrict l.vars
        (if σs.any (·.same σ) then σs else σs ++ [σ], r.names)

/-- The bindings of a literal's variables that make it an instance of a stored unit clause. -/
def fetch (kb : KnowledgeBase) (l : Literal) : List Substitution :=
  (kb.unitClauses.foldl (fetchFrom l) ([], { stem := "f" })).1

/-- A stored unit clause is the literal up to the names of variables. -/
def isRenaming (kb : KnowledgeBase) (l : Literal) : Bool :=
  kb.unitClauses.any fun c => c.literals.head?.any fun fact =>
    match fact.matchTo .empty l with
    | (true, σ) => σ.isRenaming
    | (false, _) => false

/-- The clauses, one a line. -/
def text (kb : KnowledgeBase) : String := String.join (kb.clauses.map fun c => c.text ++ "\n")

end KnowledgeBase

end Refutation
