import Promin.Spec.StorageFrame

/-!
# Signal tokens

A token is created open and is completed once: the completion that finds it open
puts its signal.
-/

namespace Promin.Durable

open InMemoryWorkflowStorage InMemorySignalTokens

def InMemoryWorkflowStorage.token (s : InMemoryWorkflowStorage) (t : String) :
    Option SignalTokenRecord :=
  s.signalTokens.findById t

variable {o : StorageOp} {r : SignalTokenRecord}

variable {s : InMemoryWorkflowStorage} {t : String}

end Promin.Durable
