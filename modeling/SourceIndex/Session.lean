import SourceIndex.Query.Fallback
import SourceIndex.Spelling.Learning

/-!
# Sessions

A session serves a sequence of requests with one formatter and one dictionary.  Only two kinds of request change the
dictionary; the others ask for what it knows or use it to correct queries.
-/

namespace SourceIndex.Session

/-- What may be asked of a session. -/
inductive Request where
  /-- To record a word so many times. -/
  | record (word : Text) (times : Nat)
  /-- To learn from a content, cut at a limit. -/
  | learn (content : Text) (limit : Nat)
  | correct (word : Text)
  | frequency (word : Text)
  | isEmpty
  | alternatives (query : Text)
  | format (query : Text)

/-- What a session answers. -/
inductive Reply where
  | number (n : Nat)
  | truth (b : Bool)
  | text (t : Text)
  | texts (ts : List Text)

/-- The dictionary after a request. -/
def Request.update (d : Dictionary) : Request → Dictionary
  | .record word times => d.recordAll (List.replicate times word)
  | .learn content limit => d.learn limit content
  | _ => d

/-- The answer to a request, given the dictionary after it. -/
def Request.reply (f : Query.Formatter) (d : Dictionary) : Request → Reply
  | .record _ _ => .number d.size
  | .learn _ _ => .number d.size
  | .correct word => .text (d.correct word)
  | .frequency word => .number (d.frequency word)
  | .isEmpty => .truth d.isEmpty
  | .alternatives query => .texts (f.alternatives d.correct query)
  | .format query => .text (f.format query)

/-- The answers to a sequence of requests, each served by the dictionary which those before it leave. -/
def run (f : Query.Formatter) (d : Dictionary) : List Request → List Reply
  | [] => []
  | request :: rest => request.reply f (request.update d) :: run f (request.update d) rest

/-- The dictionary after a sequence of requests. -/
def final (d : Dictionary) (requests : List Request) : Dictionary := requests.foldl Request.update d

end SourceIndex.Session
