import RoundRobin.CommandLine
import RoundRobin.Directory
import RoundRobin.Main
import RoundRobin.ProcessList.Grammar
import RoundRobin.TickMachine
import RoundRobin.Workload
import RoundRobin.Job
import RoundRobin.Proofs.Contract
import RoundRobin.Proofs.Scheduler
import RoundRobin.Proofs.Step
import RoundRobin.Proofs.Invariant
import RoundRobin.Proofs.Progress
import RoundRobin.Proofs.Monitor
import RoundRobin.Proofs.Reachable
import RoundRobin.Proofs.ExactTime
import RoundRobin.Proofs.Timing
import RoundRobin.Proofs.Arrivals
import RoundRobin.Proofs.Ticks
import RoundRobin.Proofs.TickRefinement
import RoundRobin.Proofs.Rounds
import RoundRobin.Proofs.Totals
import RoundRobin.Proofs.ServiceOrder
import RoundRobin.Proofs.Delay
import RoundRobin.Proofs.EventStream
import RoundRobin.Proofs.Histories
import RoundRobin.Proofs.Account
import RoundRobin.Proofs.Timeline
import RoundRobin.Proofs.StepCount
import RoundRobin.Proofs.Statistics
import RoundRobin.Proofs.Causality
import RoundRobin.Proofs.Turnaround
import RoundRobin.Proofs.Makespan
import RoundRobin.Proofs.Rotation
import RoundRobin.Proofs.Fifo
import RoundRobin.Proofs.Separation
import RoundRobin.Proofs.Clients
import RoundRobin.Proofs.Retiming
import RoundRobin.Proofs.Pipeline
import RoundRobin.Proofs.Touched
import RoundRobin.Proofs.Monotone
import RoundRobin.Proofs.Grammar
import RoundRobin.Proofs.Rendering
import RoundRobin.Proofs.Appending
import RoundRobin.Proofs.CommandLine
import RoundRobin.Proofs.Workload
import RoundRobin.Proofs.Refusal
import RoundRobin.Proofs.Coupling
import RoundRobin.Proofs.Renaming
import RoundRobin.Proofs.DeclaredCount
import RoundRobin.Proofs.QuantumText
import RoundRobin.Proofs.WaitingLine
