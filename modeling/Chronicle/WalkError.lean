import Chronicle.Text.Hex

/-!
# Failures of a walk

A walk fails either because the host is set up wrong or because the input at
hand is malformed.  Each constructor is one cause; the wording is fixed here
and nowhere else.
-/

namespace Chronicle

/-- The operations a handler may offer. -/
inductive Operation where
  | make
  | write
  | read
  deriving DecidableEq, Repr

def Operation.name : Operation → String
  | .make => "initialize"
  | .write => "serialize"
  | .read => "deserialize"

/-- Who has to act on a failure: the host's set-up, the sender of the input,
or the medium. -/
inductive ErrorKind where
  | configuration
  | protocol
  | io
  /-- No error is reported: the host's program stops. -/
  | crash
  deriving DecidableEq, Repr

def ErrorKind.label : ErrorKind → String
  | .configuration => "Configuration"
  | .protocol => "Protocol"
  | .io => "Io"
  | .crash => "Crash"

inductive WalkError where
  | unregistered (type : String)
  | unregisteredShared (type : String)
  | missingOperation (type : String) (operation : Operation)
  | nondeterministic (container alternative : String) (operation : Operation)
  | noAssetResolver (type : String)
  | unnamedAsset (type : String)
  | typeMismatch (expected : String)
  | alreadyBorrowed (type : String)
  | unexpectedEnd (needed remaining : Nat)
  | invalidTag (what : String) (tag : UInt8)
  | backReferenceOutOfRange (id known : Nat)
  | referenceOutOfSequence (expected found : Nat)
  | referenceTypeMismatch (id : Nat) (expected : String)
  | unknownTypeTag (tag : Nat)
  | invalidUtf8
  | lengthLimit (length limit : Nat)
  | outOfRange (value : Nat) (target : String)
  | unorderedKeys (container : String)
  | depthExceeded (limit : Nat)
  | trailingBytes (count : Nat)
  | assetNotFound (path type : String)
  | packed (reason : String)
  /-- Keys are compared by the content of an object that is being filled. -/
  | borrowedKey (container : String)
  /-- Keys are compared by contents that lead to each other without an end. -/
  | endlessKey (container : String)
  deriving DecidableEq, Repr

def WalkError.kind : WalkError → ErrorKind
  | .unregistered _ => .configuration
  | .unregisteredShared _ => .configuration
  | .missingOperation _ _ => .configuration
  | .nondeterministic _ _ _ => .configuration
  | .noAssetResolver _ => .configuration
  | .unnamedAsset _ => .configuration
  | .typeMismatch _ => .configuration
  | .alreadyBorrowed _ => .configuration
  | .borrowedKey _ => .crash
  | .endlessKey _ => .crash
  | _ => .protocol

/-- The short name of a cause, for reports that a machine reads. -/
def WalkError.label : WalkError → String
  | .unregistered _ => "Unregistered"
  | .unregisteredShared _ => "UnregisteredShared"
  | .missingOperation _ _ => "MissingOperation"
  | .nondeterministic _ _ _ => "Nondeterministic"
  | .noAssetResolver _ => "NoAssetResolver"
  | .unnamedAsset _ => "UnnamedAsset"
  | .typeMismatch _ => "TypeMismatch"
  | .alreadyBorrowed _ => "AlreadyBorrowed"
  | .unexpectedEnd _ _ => "UnexpectedEof"
  | .invalidTag _ _ => "InvalidTag"
  | .backReferenceOutOfRange _ _ => "BackReferenceOutOfRange"
  | .referenceOutOfSequence _ _ => "ReferenceOutOfSequence"
  | .referenceTypeMismatch _ _ => "ReferenceTypeMismatch"
  | .unknownTypeTag _ => "UnknownTypeTag"
  | .invalidUtf8 => "InvalidUtf8"
  | .lengthLimit _ _ => "LengthLimit"
  | .outOfRange _ _ => "OutOfRange"
  | .unorderedKeys _ => "UnorderedKeys"
  | .depthExceeded _ => "DepthExceeded"
  | .trailingBytes _ => "TrailingBytes"
  | .assetNotFound _ _ => "AssetNotFound"
  | .packed _ => "Codec"
  | .borrowedKey _ => "BorrowedKey"
  | .endlessKey _ => "EndlessKey"

def WalkError.message : WalkError → String
  | .unregistered type => s!"type {type} is not registered"
  | .unregisteredShared type =>
      s!"polymorphic reference to an unregistered shared type ({type})"
  | .missingOperation type operation =>
      s!"type {type} has no {operation.name} operation"
  | .nondeterministic container alternative operation =>
      s!"{container} has nondeterministic iteration order and cannot be used to " ++
        s!"{operation.name}; use {alternative}"
  | .noAssetResolver type => s!"asset handle {type} needs an asset resolver"
  | .unnamedAsset type => s!"asset of type {type} has no path"
  | .typeMismatch expected => s!"handler expected a value of type {expected}"
  | .alreadyBorrowed type => s!"shared {type} is mutably borrowed elsewhere"
  | .unexpectedEnd needed remaining =>
      s!"unexpected end of input: needed {needed} bytes, {remaining} remaining"
  | .invalidTag what tag => s!"invalid {what} tag 0x{Hex.octet tag}"
  | .backReferenceOutOfRange id known =>
      s!"back-reference {id} out of range ({known} references known)"
  | .referenceOutOfSequence expected found =>
      s!"new reference id {found} out of sequence (expected {expected})"
  | .referenceTypeMismatch id expected => s!"reference {id} is not a {expected}"
  | .unknownTypeTag tag => s!"unknown polymorphic type tag {tag}"
  | .invalidUtf8 => "invalid UTF-8 in string"
  | .lengthLimit length limit => s!"declared length {length} exceeds limit {limit}"
  | .outOfRange value target => s!"value {value} does not fit in {target}"
  | .unorderedKeys container =>
      s!"keys of {container} are not in strictly ascending order"
  | .depthExceeded limit => s!"walk depth exceeded limit {limit}"
  | .trailingBytes count => s!"{count} trailing bytes after top-level value"
  | .assetNotFound path type => s!"asset {path} could not be loaded as {type}"
  | .packed reason => reason
  | .borrowedKey container => s!"keys of {container} are already mutably borrowed"
  | .endlessKey container => s!"keys of {container} cannot be compared in finite time"

end Chronicle
