import JobGateway.Delegate.Client
import JobGateway.Delegate.Config
import JobGateway.Delegate.JobTable

/-! The delegates that configurations stand for. -/
namespace JobGateway.DelegateConfig

variable {ω : Type}

/-- The delegate of a configuration. A table of jobs belongs to whoever runs the delegate; what the
client programs act on is shared by all. -/
def delegate (clients : String → Client ω) : DelegateConfig → Delegate (JobTable × ω)
  | .client command => (clients command).delegate.onSecond
  | .table => JobTable.delegate.onFirst

end JobGateway.DelegateConfig
