import BinfmtSupport.Masking
import BinfmtSupport.Failure
import BinfmtSupport.Rejection
import BinfmtSupport.Delimiters
import BinfmtSupport.RoundTrip
import BinfmtSupport.Interruption
import BinfmtSupport.WellFormed
import BinfmtSupport.Registry
import BinfmtSupport.AllFormats
import BinfmtSupport.Sharing
import BinfmtSupport.Selection
import BinfmtSupport.Triples
import BinfmtSupport.Footprint
import BinfmtSupport.Isolation
import BinfmtSupport.Ownership
import BinfmtSupport.Orphans
import BinfmtSupport.Silence
import BinfmtSupport.Undoing
import BinfmtSupport.FormatFile
import BinfmtSupport.Sweeping
import BinfmtSupport.Steady
import BinfmtSupport.Batch
import BinfmtSupport.Together
import BinfmtSupport.Demonstration
import BinfmtSupport.Emulator
import BinfmtSupport.Matching
import BinfmtSupport.FormatLines
import BinfmtSupport.Reloading
import BinfmtSupport.Presence
import BinfmtSupport.Disabling
import BinfmtSupport.ImportStatus
import BinfmtSupport.RunDetectors
import BinfmtSupport.FixedWalk
import BinfmtSupport.KvhashTable
import BinfmtSupport.Wholeness
import BinfmtSupport.Diagnostics
import BinfmtSupport.Restart
import BinfmtSupport.Dispatch
import BinfmtSupport.Emulation
import BinfmtSupport.EntryFiles
import BinfmtSupport.Listing
import BinfmtSupport.OptionOrder
import BinfmtSupport.Reinstalling
import BinfmtSupport.Preview
