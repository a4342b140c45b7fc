import FlowCompletion.Source.Node

namespace FlowCompletion

namespace Node

def bodyOf (statements : List Node) : Option Node :=
  if statements.isEmpty then none else some (ofKind (.statements statements))

def argumentsOf (arguments : List Node) : Option Node :=
  if arguments.isEmpty then none else some (ofKind (.arguments arguments))

def statements (items : List Node) : Node := ofKind (.statements items)

def program (items : List Node) : Node := ofKind (.program (statements items))

def parens (inner : Node) : Node := ofKind (.parentheses (some (statements [inner])))

def parensTimes : Nat → Node → Node
  | 0, inner => inner
  | times + 1, inner => parens (parensTimes times inner)

def assoc (pair : Node × Node) : Node := ofKind (.assoc pair.1 pair.2)

def hash (pairs : List (Node × Node)) : Node := ofKind (.hash (pairs.map assoc))

def keywordHash (pairs : List (Node × Node)) : Node := ofKind (.keywordHash (pairs.map assoc))

def localTarget (name : String) : Node := ofKind (.varTarget .lvar name)

def call (receiver : Option Node) (operator : CallOperator) (name : String)
    (arguments : List Node) : Node :=
  ofKind (.call receiver (receiver.map fun _ => operator) name (argumentsOf arguments) none
    (!arguments.isEmpty))

def command (name : String) (arguments : List Node) : Node :=
  ofKind (.call none none name (argumentsOf arguments) none false)

def withBlock (n block : Node) : Node :=
  match n with
  | .mk span index (.call receiver operator name arguments _ parenthesized) =>
    .mk span index (.call receiver operator name arguments (some block) parenthesized)
  | n => n

def block (params : List String) (body : List Node) : Node :=
  ofKind (.block { required := params } (bodyOf body))

def lambda (params : List String) (body : List Node) : Node :=
  ofKind (.lambda { required := params } (bodyOf body))

def otherwise (body : List Node) : Node := ofKind (.otherwise (bodyOf body))

def ifThen (predicate : Node) (body : List Node) (elseBody : Option (List Node)) : Node :=
  ofKind (.ifThen predicate (bodyOf body) (elseBody.map otherwise))

def unlessThen (predicate : Node) (body : List Node) : Node :=
  ofKind (.unlessThen predicate (bodyOf body) none)

def caseOf (subject : Option Node) (clauses : List (List Node × List Node))
    (elseBody : Option (List Node)) : Node :=
  ofKind (.caseOf subject
    (clauses.map fun (conditions, body) => ofKind (.whenClause conditions (bodyOf body)))
    (elseBody.map otherwise))

def forLoop (index : String) (collection : Node) (body : List Node) : Node :=
  ofKind (.forLoop (localTarget index) collection (bodyOf body))

def jump (kind : JumpKind) (value : Option Node) : Node :=
  ofKind (.jump kind (value.bind fun v => argumentsOf [v]))

def beginBlock (body : List Node) (rescue : Option Node) (ensure : Option (List Node)) : Node :=
  ofKind (.beginBlock (bodyOf body) rescue none (ensure.bind bodyOf))

def beginElse (body : List Node) (rescue : Node) (elseBody : List Node) : Node :=
  ofKind (.beginBlock (bodyOf body) (some rescue) (some (otherwise elseBody)) none)

def rescue (exceptions : List Node) (reference : Option String) (body : List Node) : Node :=
  ofKind (.rescue exceptions (reference.map localTarget) (bodyOf body) none)

def methodDef (name : String) (receiver : Option Node) (params : List String)
    (body : List Node) : Node :=
  ofKind (.methodDef name receiver { required := params } (bodyOf body))

def classDef (name : String) (superclass : Option Node) (body : List Node) : Node :=
  ofKind (.classDef (ofKind (.constRead name)) superclass (bodyOf body))

def moduleDef (name : String) (body : List Node) : Node :=
  ofKind (.moduleDef (ofKind (.constRead name)) (bodyOf body))

end Node

end FlowCompletion
