/-! Everything that can go wrong, by cause, and the wording of each cause. -/
namespace EntityCache

inductive SyntaxFault where
  | trailingInput
  | expressionExpected
  | unexpectedCharacter
  | unterminatedString
  | invalidNumber
  | separatorExpected
  deriving DecidableEq, Repr

def SyntaxFault.message : SyntaxFault → String
  | .trailingInput => "unexpected trailing input"
  | .expressionExpected => "expected an expression"
  | .unexpectedCharacter => "unexpected character"
  | .unterminatedString => "unterminated string literal"
  | .invalidNumber => "invalid number"
  | .separatorExpected => "expected ',' or ')'"

inductive PredicateFault where
  | unknownBinaryOperator (text : String)
  | unknownBooleanOperator (text : String)
  | unknownUnaryOperator (text : String)
  | unknownQuantifier (text : String)
  | malformed (cause : SyntaxFault) (position : Nat) (source : String)
  | inWithoutValues (left : String)
  | inWithoutList (left : String)
  | inWithExpression
  | comparedWithList (operator left : String)
  | misplacedList
  | junctionWithoutParts (operator : String)
  | emptyJunction (operator : String)
  | notACollection (path typeName : String)
  deriving DecidableEq, Repr

def PredicateFault.message : PredicateFault → String
  | .unknownBinaryOperator t => s!"Unknown binary operator '{t}'"
  | .unknownBooleanOperator t => s!"Unknown boolean operator '{t}'"
  | .unknownUnaryOperator t => s!"Unknown unary operator '{t}'"
  | .unknownQuantifier t => s!"Unknown quantifier '{t}'"
  | .malformed cause n source => cause.message ++ s!" at position {n} in '{source}'"
  | .inWithoutValues left => s!"'in' on '{left}' needs at least one value"
  | .inWithoutList left => s!"'in' on '{left}' needs a list of values"
  | .inWithExpression => "'in' takes a list of literal values"
  | .comparedWithList operator left => s!"'{operator}' cannot compare '{left}' against a list"
  | .misplacedList => "A list of values is only valid on the right of 'in'"
  | .junctionWithoutParts operator => s!"'{operator}' needs at least one predicate"
  | .emptyJunction operator => s!"'{operator}' with no predicates"
  | .notACollection path t => s!"'{path}' is not a collection navigation property of '{t}'"

inductive ValueFault where
  | unacceptable (shown typeName : String)
  | listAsLiteral (typeName : String)
  | propertyExists (property typeName : String)
  | propertyRepeated (property typeName : String)
  | groupOfAbstract (typeName : String)
  | foreignToGroup (typeName groupName : String)
  | compositeFixup (typeName : String)
  | instanceOfAbstract (typeName : String)
  deriving DecidableEq, Repr

def ValueFault.message : ValueFault → String
  | .unacceptable shown t => s!"'{shown}' is not a valid {t} value"
  | .listAsLiteral t => s!"A list cannot be formatted as a single {t} literal"
  | .propertyExists p t => s!"Property '{p}' already defined on '{t}'"
  | .propertyRepeated p t => s!"Property '{p}' defined twice on '{t}'"
  | .groupOfAbstract t => s!"Abstract type '{t}' cannot own an entity group"
  | .foreignToGroup t g => s!"Entity of type '{t}' cannot join the '{g}' group"
  | .compositeFixup t => s!"Key fix-up requires a single-part key on '{t}'"
  | .instanceOfAbstract t => s!"Cannot create an instance of abstract type '{t}'"

inductive StateFault where
  | attachDetached
  | keyOfAttached (property : String)
  | editOfDeleted (property : String)
  | transition (source typeName target : String)
  | deleteDetached (typeName : String)
  | acceptDetached (typeName : String)
  | rejectDetached (typeName : String)
  | nothingToSave (state typeName : String)
  deriving DecidableEq, Repr

def StateFault.message : StateFault → String
  | .attachDetached => "Entities cannot be attached in the Detached state"
  | .keyOfAttached p =>
    s!"Key property '{p}' of an attached entity changes only through key fix-up"
  | .editOfDeleted p => s!"Cannot modify '{p}' of a deleted entity"
  | .transition source t target => s!"{source} entity '{t}' cannot become {target}"
  | .deleteDetached t => s!"Detached entity '{t}' cannot be deleted"
  | .acceptDetached t => s!"Detached entity '{t}' has no changes to accept"
  | .rejectDetached t => s!"Detached entity '{t}' has no changes to reject"
  | .nothingToSave s t => s!"{s} '{t}' has nothing to save"

inductive KeyFault where
  | wrongArity (typeName : String) (expected supplied : Nat)
  | unassigned (key : String)
  | noKeyProperties (typeName : String)
  | notGenerated (typeName property dataType : String)
  deriving DecidableEq, Repr

def KeyFault.message : KeyFault → String
  | .wrongArity t expected supplied =>
    s!"'{t}' has {expected} key properties but {supplied} values were supplied"
  | .unassigned key => s!"{key} has unassigned key values"
  | .noKeyProperties t => s!"Entity type '{t}' declares no key properties"
  | .notGenerated t p d => s!"'{t}.{p}' has no value and {d} keys cannot be generated"

/-- The cache and its indexes disagree, or an operation was asked for what is not there. -/
inductive ConsistencyFault where
  | detachOfStranger (groupName : String)
  | keyNotIndexed (key groupName : String)
  | slotOfAnother (slot : Nat) (groupName : String)
  | temporaryKeyUnknown (key : String)
  | keyMissing (key : String)
  | indexSize (live indexed : Nat)
  | indexedAs (slot : Nat) (key actual : String)
  | emptySlot (slot : Nat)
  | noGroup (typeName : String)
  | fixupWithoutGroup (typeName : String)
  deriving DecidableEq, Repr

def ConsistencyFault.message : ConsistencyFault → String
  | .detachOfStranger g => s!"detach of an entity that is not attached to the '{g}' group"
  | .keyNotIndexed key g => s!"key '{key}' missing from the '{g}' group index"
  | .slotOfAnother slot g => s!"slot {slot} of the '{g}' group holds a different instance"
  | .temporaryKeyUnknown key => s!"temporary key {key} not found for fix-up"
  | .keyMissing key => s!"key {key} missing from its group index"
  | .indexSize live indexed => s!"{live} live slots but {indexed} index entries"
  | .indexedAs slot key actual => s!"slot {slot} indexed as '{key}' but holds key '{actual}'"
  | .emptySlot slot => s!"index points at empty slot {slot}"
  | .noGroup t => s!"no entity group for '{t}'"
  | .fixupWithoutGroup t => s!"fix-up for '{t}' but no entity group exists"

inductive DocumentFault where
  | unreadable
  | odataPayload (text : String)
  | webApiPayload (text : String)
  | notAnObject (typeName text : String)
  deriving DecidableEq, Repr

def DocumentFault.message : DocumentFault → String
  | .unreadable => "malformed document"
  | .odataPayload text => s!"unexpected OData payload: {text}"
  | .webApiPayload text => s!"unexpected Web API payload: {text}"
  | .notAnObject t text => s!"expected a '{t}' object but found {text}"

inductive Fault where
  | predicate (cause : PredicateFault)
  | propertyNotFound (segment path typeName : String)
  | typeNotFound (name : String)
  | typeExists (name : String)
  | alreadyCached (key : String)
  | value (cause : ValueFault)
  | state (cause : StateFault)
  | missingKey (cause : KeyFault)
  | noResource
  | builderNotFound (name : String)
  | typeFrozen (name : String)
  | inconsistent (cause : ConsistencyFault)
  | transport (reason : String)
  | document (cause : DocumentFault)
  deriving DecidableEq, Repr

namespace Fault

def message : Fault → String
  | predicate cause => "Invalid predicate: " ++ cause.message
  | propertyNotFound segment path t =>
    s!"Unable to locate property '{segment}' of path '{path}' on type '{t}'"
  | typeNotFound name => s!"Entity type '{name}' not found"
  | typeExists name => s!"Entity type '{name}' already registered"
  | alreadyCached key => s!"An entity with key {key} is already attached"
  | value cause => "Invalid value: " ++ cause.message
  | state cause => "Invalid state transition: " ++ cause.message
  | missingKey cause => "Missing key value: " ++ cause.message
  | noResource => "Invalid query: query has no resource name"
  | builderNotFound name => s!"No uri builder registered under '{name}'"
  | typeFrozen name => s!"Entity type '{name}' is frozen"
  | inconsistent cause => "Internal consistency error: " ++ cause.message
  | transport reason => "Transport error: " ++ reason
  | document cause => "JSON error: " ++ cause.message

def isInternal : Fault → Bool
  | inconsistent _ => true
  | _ => false

end Fault

end EntityCache
