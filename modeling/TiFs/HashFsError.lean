import TiFs.Store

namespace TiFs

/-- `tonic::Status`. -/
structure GrpcStatus where
  code : Nat
  message : String
  deriving DecidableEq, Repr

inductive HashFsError where
  | unspecific (msg : String)
  | rawGrpcStatus (status : Option GrpcStatus)
  | fsNotInitialized
  | fsHasInvalidData (msg : Option String)
  | fsHasMissingData (msg : Option String)
  | fileNotFound
  | fileAlreadyExists
  | inodeHasNoInlineData
  | grpcMessageIncomplete
  | rawTonicTransportError (msg : String)
  deriving DecidableEq, Repr

/-- Debug texts are those of `reprStr`. -/
def HashFsError.ofFsError : FsError → HashFsError
  | .inodeNotFound _ => .fileNotFound
  | .fileNotFound _ => .fileNotFound
  | .keyNotFound key => .fsHasMissingData (some ("key not found: " ++ reprStr key))
  | other => .unspecific ("FsError: " ++ reprStr other)

end TiFs
