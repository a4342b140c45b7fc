import FlowCompletion.Live.Basic

namespace FlowCompletion

namespace ModuleId

def basicObject : ModuleId := ⟨0⟩
def object : ModuleId := ⟨1⟩
def kernel : ModuleId := ⟨2⟩
def moduleClass : ModuleId := ⟨3⟩
def classClass : ModuleId := ⟨4⟩
def comparable : ModuleId := ⟨5⟩
def enumerable : ModuleId := ⟨6⟩
def numeric : ModuleId := ⟨7⟩
def integer : ModuleId := ⟨8⟩
def float : ModuleId := ⟨9⟩
def rational : ModuleId := ⟨10⟩
def complex : ModuleId := ⟨11⟩
def string : ModuleId := ⟨12⟩
def symbol : ModuleId := ⟨13⟩
def nilClass : ModuleId := ⟨14⟩
def trueClass : ModuleId := ⟨15⟩
def falseClass : ModuleId := ⟨16⟩
def array : ModuleId := ⟨17⟩
def hash : ModuleId := ⟨18⟩
def range : ModuleId := ⟨19⟩
def regexp : ModuleId := ⟨20⟩
def procClass : ModuleId := ⟨21⟩
def exception : ModuleId := ⟨22⟩
def standardError : ModuleId := ⟨23⟩

end ModuleId

namespace Obj

def nil : Obj := .ofInstance ⟨0⟩
def true : Obj := .ofInstance ⟨1⟩
def false : Obj := .ofInstance ⟨2⟩

end Obj

namespace Builtin

def named (visibility : Visibility) (names : List String) : Table String Visibility :=
  names.map fun name => (name, visibility)

def basicObjectMethods : List String :=
  ["!", "!=", "==", "__id__", "__send__", "equal?", "instance_eval", "instance_exec"]

def kernelMethods : List String :=
  ["!~", "<=>", "===", "=~", "class", "clone", "define_singleton_method", "display", "dup",
    "enum_for", "eql?", "extend", "freeze", "frozen?", "hash", "inspect", "instance_of?",
    "instance_variable_defined?", "instance_variable_get", "instance_variable_set",
    "instance_variables", "is_a?", "itself", "kind_of?", "method", "methods", "nil?",
    "object_id", "public_send", "respond_to?", "send", "singleton_class", "singleton_methods",
    "tap", "then", "to_enum", "to_s"]

def kernelFunctions : List String :=
  ["Array", "Float", "Hash", "Integer", "String", "abort", "at_exit", "binding", "block_given?",
    "catch", "exit", "fail", "format", "gets", "lambda", "loop", "p", "pp", "print", "printf",
    "proc", "puts", "raise", "rand", "require", "require_relative", "sleep", "sprintf", "srand",
    "throw", "warn"]

def moduleMethods : List String :=
  ["<", "<=", ">", ">=", "alias_method", "ancestors", "attr_accessor", "attr_reader",
    "attr_writer", "class_eval", "class_variable_get", "class_variable_set", "class_variables",
    "const_defined?", "const_get", "const_set", "constants", "define_method", "include",
    "include?", "included_modules", "instance_method", "instance_methods", "method_defined?",
    "module_eval", "name", "prepend", "private_instance_methods", "public_instance_methods"]

def moduleDirectives : List String :=
  ["module_function", "private", "private_constant", "protected", "public"]

def classMethods : List String := ["allocate", "new", "subclasses", "superclass"]

def comparableMethods : List String := ["<", "<=", "==", ">", ">=", "between?", "clamp"]

def enumerableMethods : List String :=
  ["all?", "any?", "chunk_while", "collect", "count", "each_slice", "each_with_index",
    "each_with_object", "entries", "filter", "filter_map", "find", "find_index", "first",
    "flat_map", "group_by", "include?", "inject", "map", "max", "max_by", "min", "min_by",
    "none?", "partition", "reduce", "reject", "select", "sort", "sort_by", "sum", "tally",
    "to_a", "to_h", "uniq", "zip"]

def numericMethods : List String :=
  ["%", "*", "**", "+", "-", "-@", "/", "abs", "ceil", "coerce", "div", "divmod", "floor",
    "integer?", "negative?", "positive?", "round", "step", "to_c", "to_i", "to_int", "truncate",
    "zero?"]

def integerMethods : List String :=
  ["&", "<<", ">>", "^", "bit_length", "chr", "digits", "downto", "even?", "gcd", "lcm",
    "next", "odd?", "ord", "pred", "succ", "times", "to_f", "to_r", "to_s", "upto", "|"]

def floatMethods : List String :=
  ["finite?", "infinite?", "nan?", "next_float", "prev_float", "to_f", "to_r", "to_s"]

def rationalMethods : List String := ["denominator", "numerator", "to_f", "to_r"]

def complexMethods : List String := ["abs", "conjugate", "imaginary", "real", "to_c"]

def stringMethods : List String :=
  ["%", "*", "+", "<<", "=~", "[]", "[]=", "bytes", "bytesize", "capitalize", "center",
    "chars", "chomp", "chop", "concat", "count", "delete", "downcase", "each_char",
    "each_line", "empty?", "encoding", "end_with?", "force_encoding", "freeze", "gsub",
    "include?", "index", "length", "lines", "ljust", "lstrip", "match", "match?", "ord",
    "prepend", "replace", "reverse", "rjust", "rstrip", "scan", "size", "slice", "split",
    "squeeze", "start_with?", "strip", "sub", "succ", "swapcase", "to_c", "to_f", "to_i",
    "to_r", "to_s", "to_str", "to_sym", "tr", "unpack", "upcase"]

def symbolMethods : List String :=
  ["[]", "downcase", "empty?", "length", "size", "to_proc", "to_s", "to_sym", "upcase"]

def nilMethods : List String :=
  ["&", "inspect", "nil?", "to_a", "to_h", "to_i", "to_f", "to_s", "|"]

def booleanMethods : List String := ["&", "^", "inspect", "to_s", "|"]

def arrayMethods : List String :=
  ["&", "*", "+", "-", "<<", "[]", "[]=", "at", "clear", "compact", "concat", "delete",
    "delete_at", "delete_if", "dig", "each", "each_index", "empty?", "fetch", "fill",
    "flatten", "index", "insert", "join", "keep_if", "last", "length", "pack", "pop",
    "product", "push", "rotate", "sample", "shift", "shuffle", "size", "slice", "sum",
    "take", "to_a", "to_ary", "transpose", "unshift", "values_at", "|"]

def hashMethods : List String :=
  ["[]", "[]=", "any?", "clear", "compact", "delete", "dig", "each", "each_key", "each_pair",
    "each_value", "empty?", "fetch", "filter_map", "key", "key?", "keys", "length", "merge",
    "merge!", "size", "store", "to_a", "to_h", "to_hash", "transform_keys",
    "transform_values", "update", "value?", "values"]

def rangeMethods : List String :=
  ["begin", "cover?", "each", "end", "exclude_end?", "first", "last", "size", "step", "to_a"]

def regexpMethods : List String := ["=~", "match", "match?", "names", "options", "source"]

def procMethods : List String :=
  ["[]", "arity", "call", "curry", "lambda?", "parameters", "to_proc", "yield"]

def exceptionMethods : List String := ["backtrace", "cause", "full_message", "message"]

def cls (name : String) (superclass : Option ModuleId) (methods : List String)
    (includes : List ModuleId := []) : Module :=
  { name := name, kind := .cls superclass, includes, methods := named .pub methods }

def mixin (name : String) (methods : List String) : Module :=
  { name := name, methods := named .pub methods }

def bareModules : List Module :=
  let basic := cls "BasicObject" none basicObjectMethods
  let kernel := mixin "Kernel" kernelMethods
  let moduleClass := cls "Module" (some .object) moduleMethods
  let exception := cls "Exception" (some .object) exceptionMethods
  [ { basic with methods := basic.methods ++ [("initialize", .priv)] },
    cls "Object" (some .basicObject) [] [.kernel],
    { kernel with methods := kernel.methods ++ named .priv kernelFunctions },
    { moduleClass with methods := moduleClass.methods ++ named .priv moduleDirectives },
    cls "Class" (some .moduleClass) classMethods,
    mixin "Comparable" comparableMethods,
    mixin "Enumerable" enumerableMethods,
    cls "Numeric" (some .object) numericMethods [.comparable],
    cls "Integer" (some .numeric) integerMethods,
    cls "Float" (some .numeric) floatMethods,
    cls "Rational" (some .numeric) rationalMethods,
    cls "Complex" (some .numeric) complexMethods,
    cls "String" (some .object) stringMethods [.comparable],
    cls "Symbol" (some .object) symbolMethods,
    cls "NilClass" (some .object) nilMethods,
    cls "TrueClass" (some .object) booleanMethods,
    cls "FalseClass" (some .object) booleanMethods,
    cls "Array" (some .object) arrayMethods [.enumerable],
    cls "Hash" (some .object) hashMethods [.enumerable],
    cls "Range" (some .object) rangeMethods [.enumerable],
    cls "Regexp" (some .object) regexpMethods,
    cls "Proc" (some .object) procMethods,
    { exception with singletonMethods := [("exception", .pub)] },
    cls "StandardError" (some .exception) [] ]

def constants : Table String Obj :=
  bareModules.zipIdx.filterMap fun (m, i) => m.name.map fun name => (name, .ofModule ⟨i⟩)

def modules : List Module :=
  bareModules.map fun m => if m.name = some "Object" then { m with constants } else m

def instances : List Instance :=
  [⟨.nilClass, .nil, [], []⟩, ⟨.trueClass, .bool true, [], []⟩, ⟨.falseClass, .bool false, [], []⟩]

def byName? (name : String) : Option ModuleId :=
  match Table.get? constants name with
  | some (.ofModule m) => some m
  | _ => none

end Builtin

def World.initial : World :=
  { modules := Builtin.modules.toArray, instances := Builtin.instances.toArray }

end FlowCompletion
