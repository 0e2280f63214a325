import RTReticulum.Library.Reentrant
import RTReticulum.Links
import RTReticulum.Paths
import RTReticulum.Faults
import RTReticulum.Flood
import RTReticulum.Delivery
import RTReticulum.Handshake
import RTReticulum.Frames
import RTReticulum.Values
import RTReticulum.Resource
import RTReticulum.Transfers
import RTReticulum.Concurrency
import RTReticulum.Sessions
import RTReticulum.Requests
import RTReticulum.Bytes
import RTReticulum.Agreement
import RTReticulum.Routes
import RTReticulum.Interfaces
import RTReticulum.Kiss
import RTReticulum.Tcp
import RTReticulum.Addresses
import RTReticulum.Sizes
import RTReticulum.Reader
import RTReticulum.Keys
import RTReticulum.Encryption
import RTReticulum.Forgeries
import RTReticulum.Nomadnet
import RTReticulum.Lora
import RTReticulum.Compare
import RTReticulum.Skip
import RTReticulum.Reports
import RTReticulum.Lifecycle
import RTReticulum.Ble
import RTReticulum.Library.LastWrite
import RTReticulum.Commands
import RTReticulum.Bridge
import RTReticulum.Forwarding
import RTReticulum.Stations
import RTReticulum.Library.Mealy
import RTReticulum.Modem
import RTReticulum.Central
import RTReticulum.Upkeep
import RTReticulum.Arrivals
import RTReticulum.App
import RTReticulum.Board
import RTReticulum.Discovery
import RTReticulum.Coverage
import RTReticulum.Meeting
