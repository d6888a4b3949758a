import Promin.Spec.MissedOccurrences
import Promin.Spec.TickHistory

/-!
# A tick's identity names one occurrence

A tick is named by its schedule, its incarnation and its number.
-/

namespace Promin.Scheduler

open InMemorySchedulerStorage SchedulerSystem List

variable (d : Deployment)

variable {d}

/-! ## One name, one occurrence -/

end Promin.Scheduler
