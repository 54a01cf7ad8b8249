import Alt.Primitives

namespace Alt.Store

/-!
# Errors of the chunk and blob store (`alt_store::StoreError`)
-/

/-- What a store operation can fail with. -/
inductive StoreError
  | io
  | format (message : String)
  | notFound (id : ChunkId)
  | blobNotFound (id : BlobId)
  | corrupt (id : ChunkId) (reason : String)
  | tooLarge (len : Nat)
  deriving DecidableEq

end Alt.Store
