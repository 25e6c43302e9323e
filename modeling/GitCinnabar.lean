import GitCinnabar.Bytes
import GitCinnabar.Oid
import GitCinnabar.Map
import GitCinnabar.Extra
import GitCinnabar.Patch
import GitCinnabar.Host
import GitCinnabar.Metadata
import GitCinnabar.Changeset
import GitCinnabar.Reconstruct
import GitCinnabar.Prepare
import GitCinnabar.Heads
import GitCinnabar.Checkpoint
import GitCinnabar.Ordinals
import GitCinnabar.BranchHeads
import GitCinnabar.HeaderArgs
import GitCinnabar.Channel
import GitCinnabar.Response
import GitCinnabar.Replies
import GitCinnabar.Request
import GitCinnabar.Connection
