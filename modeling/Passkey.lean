import Passkey.Pam.Approval
import Passkey.Pam.Base64
import Passkey.Pam.Wiping
import Passkey.Daemon.Step
import Passkey.Phone.Calls
import Passkey.Daemon.Turns
import Passkey.Daemon.Replies
import Passkey.Daemon.Rounds
import Passkey.Daemon.Withdrawals
import Passkey.Daemon.Polling
import Passkey.Phone.KeyService
import Passkey.Phone.Prompts
import Passkey.Phone.Cancels
import Passkey.Phone.Withheld
import Passkey.Daemon.Connections
import Passkey.Daemon.Resync
import Passkey.Daemon.Reports
import Passkey.Daemon.Contiguity
import Passkey.Daemon.Assembly
import Passkey.Daemon.Partials
import Passkey.Cli.PamFiles
import Passkey.Cli.Registrations
import Passkey.Phone.Encoding
import Passkey.Daemon.Probes
import Passkey.Daemon.Decoding
import Passkey.Daemon.Offsets
import Passkey.Phone.Responses
import Passkey.Phone.Replacements
import Passkey.Phone.Accounts
import Passkey.Phone.Canonical
import Passkey.Phone.Decoding
import Passkey.Phone.Enumeration
import Passkey.Phone.WifiTransport
import Passkey.Phone.Revocation
import Passkey.Daemon.Numbers
import Passkey.Library.Streams
import Passkey.Daemon.Records
import Passkey.Network.System
import Passkey.Network.Requests
import Passkey.Network.Answers
import Passkey.Phone.Followups
import Passkey.Daemon.Deliveries
import Passkey.Phone.Openers
import Passkey.Daemon.Targets
import Passkey.Library.Ranking
import Passkey.Daemon.Devices
import Passkey.Daemon.Strides
import Passkey.Daemon.FanOut
import Passkey.Daemon.Absences
import Passkey.Daemon.Holders
import Passkey.Daemon.Listings
import Passkey.Daemon.Roster
import Passkey.Daemon.Additions
import Passkey.Words
import Passkey.Addresses
import Passkey.Cli.Connected
import Passkey.Cli.Choices
import Passkey.Network.Chains
import Passkey.Network.Pairing
import Passkey.Cli.Processes
import Passkey.Cli.ModuleLines
import Passkey.Cli.VendorCopies
import Passkey.Phone.PromptActivity
import Passkey.Phone.Touches
import Passkey.Phone.Screens
import Passkey.Network.Handshake
import Passkey.Daemon.Endings
import Passkey.Daemon.Keepalive
import Passkey.Daemon.Adb
import Passkey.Daemon.AdbLoop
import Passkey.Pam.Returns
import Passkey.Pam.Helper
import Passkey.Cli.Logins
import Passkey.Cli.Interruptions
import Passkey.Phone.Signatures
import Passkey.Phone.Slots
import Passkey.Network.Consent
import Passkey.Network.Links
