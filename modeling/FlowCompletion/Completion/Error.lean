import FlowCompletion.Flow.Evaluation
import FlowCompletion.Signature.Loading

namespace FlowCompletion

inductive AnalysisError where
  | tooDeep (error : DepthError)
  | outOfRange (offset length : Nat)
  | signature (error : LoadError)
deriving DecidableEq

namespace AnalysisError

def message : AnalysisError → String
  | tooDeep e => "expression nesting exceeds the evaluation depth limit of " ++ toString e.limit
  | outOfRange offset length =>
    "offset " ++ toString offset ++ " is out of range for source of length " ++ toString length
  | signature e => e.message

def span? : AnalysisError → Option Span
  | tooDeep e => some e.span
  | outOfRange _ length => some ⟨length, length⟩
  | signature _ => none

end AnalysisError

end FlowCompletion
