import Rag3db.Weaver.DataflowGraph

namespace Rag3db.Weaver

/-- What a search reports beside its results. -/
structure SearchMeta where
  warnings : List String
  vectorCount : Nat
  bm25Count : Nat
  sparseCount : Nat
  fusedCount : Nat
  rerankedCount : Nat
  searchTimeMs : Nat
  incomplete : Bool
  pendingCount : Nat
  signals : Nat
  diagnostics : Option String
  deriving DecidableEq

/-- The values on ports, by the types that fan-in tells apart: summaries of
children `C`, states of signal branches `S` and results `R`. Values of any
other type are texts here. -/
inductive PortValue (C S R : Type)
  | trigger
  | children (byKey : String → Option (List C))
  | branchStatus (status : List S)
  | results (results : List R)
  | uuids (uuids : List (String × String))
  | searchMeta (info : SearchMeta)
  | other (text : String)

def SearchMeta.merge (a b : SearchMeta) : SearchMeta where
  warnings := b.warnings.foldl (fun ws w => if w ∈ ws then ws else ws ++ [w]) a.warnings
  vectorCount := a.vectorCount + b.vectorCount
  bm25Count := a.bm25Count + b.bm25Count
  sparseCount := a.sparseCount + b.sparseCount
  fusedCount := max a.fusedCount b.fusedCount
  rerankedCount := max a.rerankedCount b.rerankedCount
  searchTimeMs := max a.searchTimeMs b.searchTimeMs
  incomplete := a.incomplete || b.incomplete
  pendingCount := max a.pendingCount b.pendingCount
  signals := a.signals ||| b.signals
  diagnostics := a.diagnostics.or b.diagnostics

namespace PortValue

variable {C S R : Type}

def mergePortValues : PortValue C S R → PortValue C S R → Except String (PortValue C S R)
  | .trigger, b => .ok b
  | a, .trigger => .ok a
  | .children a, .children b =>
    .ok (.children fun key => match b key with
      | some new => some ((a key).getD [] ++ new)
      | none => a key)
  | .branchStatus a, .branchStatus b => .ok (.branchStatus (a ++ b))
  | .results a, .results b => .ok (.results (a ++ b))
  | .uuids a, .uuids b => .ok (.uuids (a ++ b))
  | .searchMeta a, .searchMeta b => .ok (.searchMeta (a.merge b))
  | _, _ => .error "cannot merge PortValues of incompatible types"

def merging : Merge (PortValue C S R) := ⟨.trigger, mergePortValues⟩

end PortValue

end Rag3db.Weaver
