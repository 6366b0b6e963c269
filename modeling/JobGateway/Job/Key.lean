/-! Job keys. A role key names a set of jobs by cluster and role; a full key names one job by
cluster, role, environment and name. The parts of a key are any texts: a slash in one of them is
kept as it is, so two keys may have the same text. -/
namespace JobGateway

inductive JobKey where
  | role (cluster role : String)
  | full (cluster role environment name : String)
  deriving DecidableEq, Repr

namespace JobKey

def roleText (cluster role : String) : String := cluster ++ "/" ++ role

def fullText (cluster role environment name : String) : String :=
  cluster ++ "/" ++ role ++ "/" ++ environment ++ "/" ++ name

def cluster : JobKey → String
  | .role c _ => c
  | .full c _ _ _ => c

def roleName : JobKey → String
  | .role _ r => r
  | .full _ r _ _ => r

def environment? : JobKey → Option String
  | .role .. => none
  | .full _ _ e _ => some e

def name? : JobKey → Option String
  | .role .. => none
  | .full _ _ _ n => some n

def isFull : JobKey → Bool
  | .role .. => false
  | .full .. => true

def text : JobKey → String
  | .role c r => roleText c r
  | .full c r e n => fullText c r e n

def roleKeyText (k : JobKey) : String := roleText k.cluster k.roleName

end JobKey

end JobGateway
