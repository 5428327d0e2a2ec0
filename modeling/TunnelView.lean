import TunnelView.Agenda
import TunnelView.Exchange
import TunnelView.Main
import TunnelView.Proofs.Agenda.ByHand
import TunnelView.Proofs.Agenda.OnTime
import TunnelView.Proofs.Assumption
import TunnelView.Proofs.Closing
import TunnelView.Proofs.CommandLine
import TunnelView.Proofs.Convergence
import TunnelView.Proofs.Cuts
import TunnelView.Proofs.Details
import TunnelView.Proofs.Excerpt
import TunnelView.Proofs.Failing
import TunnelView.Proofs.Idling
import TunnelView.Proofs.Interrupts
import TunnelView.Proofs.Invariant
import TunnelView.Proofs.Loss
import TunnelView.Proofs.Order
import TunnelView.Proofs.Owners
import TunnelView.Proofs.QuietWindow
import TunnelView.Proofs.Reconnecting
import TunnelView.Proofs.Reentry.Alarms
import TunnelView.Proofs.Reports.Nulls
import TunnelView.Proofs.Scripts.Arranged
import TunnelView.Proofs.Sending
import TunnelView.Proofs.Termination
import TunnelView.Proofs.Number.Figures
import TunnelView.Proofs.Tables.Cells
import TunnelView.Proofs.Tables
import TunnelView.Proofs.Timelines
