import Niflhel.Resolution
import Niflhel.Pinning
import Niflhel.KillTarget
import Niflhel.KillConfirmed
import Niflhel.StaleFinish
import Niflhel.Recovery
import Niflhel.LogGaps
import Niflhel.Upload
import Niflhel.Publication
import Niflhel.VolumeNames
import Niflhel.Residue
import Niflhel.BaseRace
import Niflhel.RotationRead
import Niflhel.TornWrite
import Niflhel.Plumbing
import Niflhel.GuestAgent
import Niflhel.Listeners
import Niflhel.KeyConfined
import Niflhel.DetachKeys
import Niflhel.JsonLimits
import Niflhel.DnsRate
import Niflhel.MetadataTransport
import Niflhel.ResultLogs
import Niflhel.Environment
import Niflhel.FrameStream
import Niflhel.PackSsh
import Niflhel.Routes
import Niflhel.RuntimeUser
import Niflhel.Sink
