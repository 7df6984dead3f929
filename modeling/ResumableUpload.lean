import ResumableUpload.Config.Sources
import ResumableUpload.Engine.Session
import ResumableUpload.Event.Json
import ResumableUpload.Launch.OnDisk
import ResumableUpload.Main
import ResumableUpload.Words
import ResumableUpload.Writer.Target
import ResumableUpload.Proofs.Course.Loss
import ResumableUpload.Proofs.Course.Session
import ResumableUpload.Proofs.Arrival
import ResumableUpload.Proofs.Course.Endings
import ResumableUpload.Proofs.Course.Handover
import ResumableUpload.Proofs.Course.Each
import ResumableUpload.Proofs.Course.Stale
import ResumableUpload.Proofs.Course.Agree
import ResumableUpload.Proofs.Course.Outstanding
import ResumableUpload.Proofs.Course.Destinations
import ResumableUpload.Proofs.Disk.Below
import ResumableUpload.Proofs.Disk.Usage
import ResumableUpload.Proofs.Disk.Storing
import ResumableUpload.Proofs.Disk.Delivering
import ResumableUpload.Proofs.Course.Orderly
import ResumableUpload.Proofs.Course.Space
import ResumableUpload.Proofs.Course.Length
import ResumableUpload.Proofs.Course.Reserve
import ResumableUpload.Proofs.Course.Refusals
import ResumableUpload.Proofs.Disk.Outlook
import ResumableUpload.Proofs.Course.Recreated
import ResumableUpload.Proofs.Disk.Alike
import ResumableUpload.Engine.Faults
import ResumableUpload.Proofs.Engine.Leaves
import ResumableUpload.Proofs.Engine.Paired
import ResumableUpload.Proofs.Apart
import ResumableUpload.Proofs.Registry.Balance
import ResumableUpload.Proofs.Engine.Afresh
import ResumableUpload.Proofs.Engine.InTurn
import ResumableUpload.Proofs.Course.Pending
import ResumableUpload.Proofs.Fragment.Waiting
import ResumableUpload.Proofs.Writer.Bursts
import ResumableUpload.Proofs.Writer.Retry
import ResumableUpload.Proofs.Path.Confined
import ResumableUpload.Proofs.Path.Dots
import ResumableUpload.Proofs.Disk.Reopening
import ResumableUpload.Proofs.Disk.Census
import ResumableUpload.Proofs.Disk.Accord
import ResumableUpload.Proofs.Course.Filed
import ResumableUpload.Proofs.Course.Repeated
import ResumableUpload.Proofs.Path.Shown
import ResumableUpload.Proofs.Event.RoundTrip
import ResumableUpload.Proofs.Launch.Base
