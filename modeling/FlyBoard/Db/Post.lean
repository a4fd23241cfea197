import FlyBoard.Lib.Bytes

/-!
# Posts (`src/db/post.c`)

The columns of `posts` that decide who sees a post. Times are UTC seconds; the
source compares strings of one format, which order in the same way.
-/

namespace FlyBoard.Db

/-- `posts.status`; rows from before the column read as published. -/
inductive PostStatus where
  | draft
  | published
  | pending
deriving DecidableEq

structure Post where
  id : ℕ
  boardId : ℕ
  /-- 0 for an anonymous post. -/
  userId : ℕ
  title : Bytes
  content : Bytes
  status : PostStatus
  createdAt : ℕ
deriving DecidableEq

namespace Post

def isDraft (p : Post) : Bool := p.status == .draft

def isScheduled (p : Post) (now : ℕ) : Bool := !p.isDraft && now < p.createdAt

/-- `post_is_public`; a pending post passes it and is held back by its readers. -/
def isPublic (p : Post) (now : ℕ) : Bool := !p.isDraft && !p.isScheduled now

end Post

end FlyBoard.Db
