import EmmcLayout.Command
import EmmcLayout.Container.Image
import EmmcLayout.Container.Slot
import EmmcLayout.DeviceTree.Listing
import EmmcLayout.Layout.Migration
import EmmcLayout.Table.Report
import EmmcLayout.Transfer
import EmmcLayout.Proofs.Number.Align
import EmmcLayout.Proofs.Outcome
import EmmcLayout.Proofs.Partition
import EmmcLayout.Proofs.Layout.Placer
import EmmcLayout.Proofs.Layout.Coherent
import EmmcLayout.Proofs.Layout.Run
import EmmcLayout.Proofs.Layout.Creation
import EmmcLayout.Proofs.Layout.Edit
import EmmcLayout.Proofs.Layout.Autofill
import EmmcLayout.Proofs.DeviceTree.Strings
import EmmcLayout.Proofs.DeviceTree.Token
import EmmcLayout.Proofs.DeviceTree.Writer
import EmmcLayout.Proofs.DeviceTree.Blob
import EmmcLayout.Proofs.DeviceTree.Walk
import EmmcLayout.Proofs.DeviceTree.Partitions
import EmmcLayout.Proofs.DeviceTree.Phandles
import EmmcLayout.Proofs.DeviceTree.Reservations
import EmmcLayout.Proofs.DeviceTree.CarriedOver
import EmmcLayout.Proofs.DeviceTree.Fresh
import EmmcLayout.Proofs.Container.Image
import EmmcLayout.Proofs.DeviceTree.Replacement
import EmmcLayout.Proofs.Table.Format
import EmmcLayout.Proofs.Table.Validate
import EmmcLayout.Proofs.Layout.Modify
import EmmcLayout.Proofs.Layout.Validity
import EmmcLayout.Proofs.Grammar.Definer
import EmmcLayout.Proofs.Table.Snapshot
import EmmcLayout.Proofs.Gzip.Member
import EmmcLayout.Proofs.Container.Bundle
import EmmcLayout.Proofs.Container.Rebuilt
import EmmcLayout.Proofs.Container.Stored
import EmmcLayout.Proofs.Container.Slot
import EmmcLayout.Proofs.Layout.Records
import EmmcLayout.Proofs.Layout.Origins
import EmmcLayout.Proofs.Table.Fill
import EmmcLayout.Proofs.Table.Conversion
import EmmcLayout.Proofs.Number.Grammar
import EmmcLayout.Proofs.Number.Shortest
import EmmcLayout.Proofs.DeviceTree.ReadBack
import EmmcLayout.Proofs.DeviceTree.Tree
import EmmcLayout.Proofs.DeviceTree.Lookup
import EmmcLayout.Proofs.DeviceTree.Ranges
import EmmcLayout.Proofs.Container.Ranges
import EmmcLayout.Proofs.Grammar.Rules
import EmmcLayout.Proofs.Grammar.Modifier
import EmmcLayout.Proofs.Layout.Alignment
import EmmcLayout.Proofs.Layout.Selection
import EmmcLayout.Proofs.Layout.Migration
import EmmcLayout.Proofs.Table.Places
import EmmcLayout.Proofs.Table.Refill
import EmmcLayout.Proofs.Table.FromRecords
import EmmcLayout.Proofs.Table.Merging
import EmmcLayout.Proofs.Layout.Spans
import EmmcLayout.Proofs.Layout.WithinWord
import EmmcLayout.Proofs.DeviceTree.Sorting
import EmmcLayout.Proofs.DeviceTree.Allocation
import EmmcLayout.Proofs.DeviceTree.Counting
import EmmcLayout.Proofs.DeviceTree.Idempotence
import EmmcLayout.Proofs.DeviceTree.Nops
import EmmcLayout.Proofs.DeviceTree.Acceptance
import EmmcLayout.Proofs.DeviceTree.Items
import EmmcLayout.Proofs.DeviceTree.WellFormed
import EmmcLayout.Proofs.DeviceTree.Offsets
import EmmcLayout.Proofs.Layout.Commutation
import EmmcLayout.Proofs.Layout.RecordEdits
import EmmcLayout.Proofs.Table.Checksum
import EmmcLayout.Proofs.Transfer
